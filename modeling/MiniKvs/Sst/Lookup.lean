import MiniKvs.Sst.Layout
import MiniKvs.Sst.Search

/-! What lookups and scans return. A run over any source of pages is the sequence
of fetches that the file prescribes (`locate`, `leafWalk`) with a result that
depends on the file alone; on sorted leaves that is the lookup in the list. -/

namespace MiniKvs

open Lib

namespace BTreeNode

variable {key : Uint32}

/-! ### Binary searches -/

/-- The child found is a child, whatever the keys are. -/
theorem findChild_mem {node : BTreeNode} {o : ℕ} (h : node.findChild key = some o) :
    ∃ j < node.numKeys, (node.entry j).value.val = o := by
  obtain ⟨mid, hm, rfl⟩ := Option.map_eq_some_iff.mp h
  obtain ⟨h1, h2, -⟩ := bisect_sound hm
  exact ⟨mid.toNat, by omega, rfl⟩

/-- On ordered keys it is the first child with a key that is large enough. -/
theorem findChild_eq_some {node : BTreeNode} {m : ℕ} (hm : m < node.numKeys)
    (hlt : ∀ j < m, (node.entry j).key < key)
    (hge : ∀ j, m ≤ j → j < node.numKeys → key ≤ (node.entry j).key) :
    node.findChild key = some (node.entry m).value.val := by
  apply Option.map_eq_some_iff.mpr
  refine ⟨m, bisect_complete (by omega) (by omega) (by omega) ?_ (fun j h1 h2 => ?_)
    (fun j h1 h2 => ?_), rfl⟩
  · simp only [Int.toNat_natCast]
    rw [if_pos (hge m le_rfl hm)]
    rcases Nat.eq_zero_or_pos m with h0 | h0
    · rw [if_pos (.inl (by omega))]
    · have hprev := hlt (m - 1) (by omega)
      have hpred : ((m : ℤ) - 1).toNat = m - 1 := by omega
      rw [hpred, if_pos (.inr hprev)]
  · have := hlt j.toNat (by omega)
    rw [if_neg (not_le.mpr this)]
  · have h3 := hge j.toNat (by omega) (by omega)
    have h4 := hge (j - 1).toNat (by omega) (by omega)
    rw [if_pos h3, if_neg]
    rintro (h0 | h0)
    · omega
    · exact absurd h0 (not_lt.mpr h4)

theorem findChild_eq_none {node : BTreeNode} (h : ∀ j < node.numKeys, (node.entry j).key < key) :
    node.findChild key = none := by
  apply Option.map_eq_none_iff.mpr
  apply bisect_eq_none
  intro i h1 h2
  rw [if_neg (not_le.mpr (h i.toNat (by omega)))]
  exact fun h => (by cases h)

theorem entry_leafAt {es : List Entry} {offset j : ℕ} (hj : j < es.length) :
    (leafAt es offset).entry j = es[j] := List.getD_eq_getElem _ _ hj

/-- The search of a leaf whose keys are ordered. -/
theorem findValue_leafAt {es : List Entry} (hs : SortedBy Entry.key es) (offset : ℕ) :
    (leafAt es offset).findValue key =
      ((findKey Entry.key es key).map Entry.value).getD Utils.invalidValue := by
  have hnum : (leafAt es offset).numKeys = es.length := rfl
  rw [findValue, hnum]
  cases hf : findKey Entry.key es key with
  | none =>
    rw [bisect_eq_none]
    · rfl
    · intro i h1 h2
      have hi : i.toNat < es.length := by omega
      have hne := findKey_eq_none.mp hf _ (List.getElem_mem hi)
      rw [entry_leafAt hi]
      simp only [if_neg hne]
      split_ifs <;> exact fun h => (by cases h)
  | some e =>
    obtain ⟨hmem, rfl⟩ := findKey_mem hf
    obtain ⟨m, hm, rfl⟩ := List.getElem_of_mem hmem
    have hget : ∀ j : ℤ, 0 ≤ j → (hj : j.toNat < es.length) →
        (leafAt es offset).entry j.toNat = es[j.toNat] := fun j _ hj => entry_leafAt hj
    have hord := List.pairwise_iff_getElem.mp hs
    rw [bisect_complete (i := m) (by omega) (by omega) (by omega)]
    · rw [Option.map_some, Option.getD_some]
      simp only [Int.toNat_natCast, entry_leafAt hm]
    · simp only [Int.toNat_natCast, entry_leafAt hm, if_true]
    · intro j h1 h2
      have hj : j.toNat < es.length := by omega
      have := hord j.toNat m hj hm (by omega)
      simp only [entry_leafAt hj, if_neg this.ne, if_pos this]
    · intro j h1 h2
      have hj : j.toNat < es.length := by omega
      have := hord m j.toNat hm hj (by omega)
      simp only [entry_leafAt hj, if_neg this.ne', if_neg this.not_gt]

/-! ### The pages a lookup visits -/

def nodeAt (page : ℕ → Option PageData) (offset : ℕ) : BTreeNode :=
  match page offset with
  | some (.node node) => node
  | _ => new

theorem nodeAt_of_page {page : ℕ → Option PageData} {offset : ℕ} {node : BTreeNode}
    (h : page offset = some (.node node)) : nodeAt page offset = node := by
  rw [nodeAt, h]

/-- The pages visited on the way down from `offset`, and the page of the leaf reached. -/
def locate (page : ℕ → Option PageData) (key : Uint32) : ℕ → ℕ → List ℕ × Option ℕ
  | 0, _ => ([], none)
  | fuel + 1, offset =>
    if (nodeAt page offset).isLeaf then ([offset], some offset)
    else match (nodeAt page offset).findChild key with
      | none => ([offset], none)
      | some o => (offset :: (locate page key fuel o).1, (locate page key fuel o).2)

/-- What a lookup returns that ends at page `leaf`. -/
def valueAt (page : ℕ → Option PageData) (key : Uint32) : Option ℕ → Uint32
  | none => Utils.invalidValue
  | some offset => (nodeAt page offset).findValue key

section Visit

variable {σ : Type} (source : Source σ)

/-- Fetch nodes one after the other. -/
def visit : List ℕ → σ → Outcome σ
  | [], s => .ok s
  | offset :: offsets, s => do
    let (_, s) ← source.node offset s
    visit offsets s

/-- In states with `Inv` the source yields the pages of the file, if it does not fail. -/
structure Reads (page : ℕ → Option PageData) (Inv : σ → Prop) : Prop where
  filter : ∀ s f f' s', Inv s → page 0 = some (.filter f) → source.filter s = .ok (f', s') →
    f' = f ∧ Inv s'
  node : ∀ offset s n n' s', Inv s → page offset = some (.node n) →
    source.node offset s = .ok (n', s') → n' = n ∧ Inv s'

variable {source} {page : ℕ → Option PageData} {Inv : σ → Prop} {leaves : List (List Entry)}
  {total : ℕ}

/-- The root of a subtree is a node; its children are found by their offsets. -/
theorem Subtree.node {h off i n : ℕ} (hs : Subtree leaves total page h off i n) :
    page off = some (.node (nodeAt page off)) ∧ off < 524288 := by
  cases h with
  | zero =>
    obtain ⟨-, -, hlt, es, -, hp⟩ := hs
    exact ⟨by rw [nodeAt_of_page hp, hp], hlt⟩
  | succ h =>
    obtain ⟨hlt, cs, -, -, ⟨node, hp, -⟩, -⟩ := hs
    exact ⟨by rw [nodeAt_of_page hp, hp], hlt⟩

theorem Subtree.isLeaf_zero {off i n : ℕ} (hs : Subtree leaves total page 0 off i n) :
    (nodeAt page off).isLeaf = true := by
  obtain ⟨-, -, -, es, -, hp⟩ := hs
  rw [nodeAt_of_page hp]; rfl

theorem Child.entry_value {c : Child} (h : c.off < 524288) :
    (Child.entry leaves c).value.val = c.off := Nat.mod_eq_of_lt (h.trans (by norm_num))

theorem Subtree.isLeaf_succ {h off i n : ℕ} (hs : Subtree leaves total page (h + 1) off i n) :
    (nodeAt page off).isLeaf = false := by
  obtain ⟨-, cs, -, -, ⟨node, hp, hn⟩, -⟩ := hs
  rw [nodeAt_of_page hp]; exact hn.isLeaf

/-- A step down from an internal node leads to a child's subtree. -/
theorem Subtree.findChild {h off i n o : ℕ} (hs : Subtree leaves total page (h + 1) off i n)
    (ho : (nodeAt page off).findChild key = some o) :
    ∃ i' n', Subtree leaves total page h o i' n' := by
  obtain ⟨-, cs, -, -, ⟨node, hp, hn⟩, hcs⟩ := hs
  rw [nodeAt_of_page hp] at ho
  obtain ⟨j, hj, rfl⟩ := findChild_mem ho
  rw [hn.numKeys] at hj
  have hsub := (hcs cs[j] (List.getElem_mem hj)).2
  have hentry : node.entry j = Child.entry leaves cs[j] := by
    rw [BTreeNode.entry, hn.entries, List.getD_eq_getElem _ _ (by simpa using hj), List.getElem_map]
  rw [hentry, Child.entry_value hsub.node.2]
  exact ⟨_, _, hsub⟩

/-- A lookup goes down to a leaf as a scan does. -/
theorem searchNode_eq_descend (source : Source σ) (key : Uint32) : ∀ (fuel off : ℕ) (s : σ),
    searchNode source key fuel off s = (descend source key fuel off s).map fun x =>
      (x.1.elim Utils.invalidValue fun y => y.2.findValue key, x.2)
  | 0, _, _ => rfl
  | fuel + 1, off, s => by
    rw [searchNode, descend]
    cases source.node off s with
    | error e => rfl
    | ok x =>
      obtain ⟨node, s⟩ := x
      simp only [ok_bind]
      by_cases h0 : node.numKeys = 0
      · -- an empty node has no child and no value
        have hvalue : node.findValue key = Utils.invalidValue := by rw [findValue, h0]; rfl
        have hchild : node.findChild key = none := by rw [findChild, h0]; rfl
        rw [if_pos h0, hchild]
        by_cases hl : node.isLeaf
        · simp only [if_pos hl, Except.map, Option.elim_some, hvalue]
        · simp only [if_neg hl, Except.map, Option.elim_none]
      · rw [if_neg h0]
        by_cases hl : node.isLeaf
        · simp only [if_pos hl, Except.map, Option.elim_some]
        · simp only [if_neg hl]
          cases node.findChild key with
          | none => rfl
          | some o => exact searchNode_eq_descend source key fuel o s

/-- The descent is its fetches, down to the leaf that the file gives. -/
theorem descend_eq_visit (hr : Reads source page Inv) : ∀ {h fuel off i n : ℕ} {s : σ},
    Subtree leaves total page h off i n → h < fuel → Inv s →
    descend source key fuel off s = (visit source (locate page key fuel off).1 s).map fun s =>
      ((locate page key fuel off).2.map fun o => (o, nodeAt page o), s) := by
  intro h
  induction h with
  | zero =>
    intro fuel off i n s hs hf hi
    obtain ⟨fuel, rfl⟩ : ∃ f, fuel = f + 1 := ⟨fuel - 1, by omega⟩
    have hpage := hs.node.1
    have hleaf := hs.isLeaf_zero
    rw [descend, locate, if_pos hleaf]
    simp only [visit]
    cases hn : source.node off s with
    | error e => rfl
    | ok x =>
      obtain ⟨hx, -⟩ := hr.node off s _ x.1 x.2 hi hpage hn
      simp only [ok_bind, Except.map, hx, hleaf, if_true, Option.map_some]
  | succ h ih =>
    intro fuel off i n s hs hf hi
    obtain ⟨fuel, rfl⟩ : ∃ f, fuel = f + 1 := ⟨fuel - 1, by omega⟩
    have hpage := hs.node.1
    have hleaf := hs.isLeaf_succ
    rw [descend, locate, hleaf]
    simp only [Bool.false_eq_true, if_false]
    cases hn : source.node off s with
    | error e =>
      cases (nodeAt page off).findChild key <;> simp only [visit, hn, error_bind] <;> rfl
    | ok x =>
      obtain ⟨hx, hi'⟩ := hr.node off s _ x.1 x.2 hi hpage hn
      simp only [ok_bind, hx, hleaf, Bool.false_eq_true, if_false]
      cases hc : (nodeAt page off).findChild key with
      | none => simp only [visit, hn, ok_bind, Except.map, Option.map_none]
      | some o =>
        obtain ⟨i', n', hsub⟩ := hs.findChild hc
        simp only [visit, hn, ok_bind]
        exact ih hsub (by omega) hi'

end Visit

/-! ### The leaf of a key -/

/-- The leaves are a sorted list that was cut up. -/
structure Ordered (leaves : List (List Entry)) : Prop where
  sorted : SortedBy Entry.key leaves.flatten
  nonempty : ∀ es ∈ leaves, es ≠ []

/-- The largest key of leaf `i`. -/
def lastKeyAt (leaves : List (List Entry)) (i : ℕ) : Uint32 := (leafOf (leaves.getD i [])).lastKey

/-- Leaf `m` is the first with a key that is large enough. -/
structure IsLeafOf (leaves : List (List Entry)) (key : Uint32) (m : ℕ) : Prop where
  lt : m < leaves.length
  before : ∀ j < m, lastKeyAt leaves j < key
  le : key ≤ lastKeyAt leaves m

/-- A key has a leaf unless it is above all keys. -/
theorem exists_leaf (leaves : List (List Entry)) (key : Uint32) :
    (∃ m, IsLeafOf leaves key m) ∨ ∀ i < leaves.length, lastKeyAt leaves i < key := by
  by_cases hex : ∃ m, m < leaves.length ∧ key ≤ lastKeyAt leaves m
  · have hfind := Nat.find_spec hex
    refine .inl ⟨Nat.find hex, hfind.1, fun j hj => ?_, hfind.2⟩
    have := Nat.find_min hex hj
    exact not_le.mp fun hle => this ⟨hj.trans hfind.1, hle⟩
  · exact .inr fun i hi => not_le.mp fun hle => hex ⟨i, hi, hle⟩

namespace Ordered

variable {leaves : List (List Entry)}

theorem leaf (h : Ordered leaves) {i : ℕ} (hi : i < leaves.length) : SortedBy Entry.key leaves[i] :=
  (List.pairwise_flatten.mp h.sorted).1 _ (List.getElem_mem hi)

theorem lt_of_lt (h : Ordered leaves) {i j : ℕ} (hij : i < j) (hj : j < leaves.length)
    {a b : Entry} (ha : a ∈ leaves[i]) (hb : b ∈ leaves[j]) : a.key < b.key :=
  List.pairwise_iff_getElem.mp (List.pairwise_flatten.mp h.sorted).2 i j (hij.trans hj) hj hij a ha
    b hb

theorem lastKeyAt_mem (h : Ordered leaves) {i : ℕ} (hi : i < leaves.length) :
    ∃ e ∈ leaves[i], e.key = lastKeyAt leaves i := by
  have hpos := List.length_pos_iff.mpr (h.nonempty _ (List.getElem_mem hi))
  have hlast : leaves[i].length - 1 < leaves[i].length := by omega
  refine ⟨leaves[i][leaves[i].length - 1], List.getElem_mem hlast, ?_⟩
  rw [lastKeyAt, List.getD_eq_getElem _ _ hi, lastKey, leafOf, BTreeNode.entry]
  simp only
  rw [List.getD_eq_getElem _ _ hlast]

theorem le_lastKeyAt (h : Ordered leaves) {i : ℕ} (hi : i < leaves.length) {e : Entry}
    (he : e ∈ leaves[i]) : e.key ≤ lastKeyAt leaves i := by
  obtain ⟨j, hj, rfl⟩ := List.getElem_of_mem he
  rw [lastKeyAt, List.getD_eq_getElem _ _ hi, lastKey, leafOf, BTreeNode.entry]
  simp only
  rw [List.getD_eq_getElem _ _ (by omega)]
  rcases Nat.lt_or_ge j (leaves[i].length - 1) with hlt | hge
  · exact (List.pairwise_iff_getElem.mp (h.leaf hi) j _ hj (by omega) hlt).le
  · have : j = leaves[i].length - 1 := by omega
    subst this
    exact le_rfl

theorem lastKeyAt_lt (h : Ordered leaves) {i j : ℕ} (hij : i < j) (hj : j < leaves.length) :
    lastKeyAt leaves i < lastKeyAt leaves j := by
  obtain ⟨a, ha, hak⟩ := h.lastKeyAt_mem (hij.trans hj)
  obtain ⟨b, hb, hbk⟩ := h.lastKeyAt_mem hj
  rw [← hak, ← hbk]
  exact h.lt_of_lt hij hj ha hb

theorem lastKeyAt_le (h : Ordered leaves) {i j : ℕ} (hij : i ≤ j) (hj : j < leaves.length) :
    lastKeyAt leaves i ≤ lastKeyAt leaves j := by
  rcases Nat.eq_or_lt_of_le hij with rfl | hlt
  · exact le_rfl
  · exact (h.lastKeyAt_lt hlt hj).le

/-- The entry of a key is in its leaf, or nowhere. -/
theorem findKey_flatten (h : Ordered leaves) {key : Uint32} {m : ℕ} (hlt : m < leaves.length)
    (hm : IsLeafOf leaves key m) :
    findKey Entry.key leaves.flatten key = findKey Entry.key leaves[m] key := by
  have hmem : ∀ e ∈ leaves.flatten, e.key = key → e ∈ leaves[m] := by
    intro e he hk
    obtain ⟨es, hes, he⟩ := List.mem_flatten.mp he
    obtain ⟨j, hj, rfl⟩ := List.getElem_of_mem hes
    rcases lt_trichotomy j m with hjm | rfl | hjm
    · exact absurd (hk ▸ h.le_lastKeyAt hj he) (not_le.mpr (hm.before j hjm))
    · exact he
    · obtain ⟨a, ha, hak⟩ := h.lastKeyAt_mem hlt
      have := h.lt_of_lt hjm hj ha he
      rw [hak, hk] at this
      exact absurd hm.le (not_le.mpr this)
  cases hf : findKey Entry.key leaves[m] key with
  | none =>
    rw [findKey_eq_none] at hf ⊢
    exact fun e he hk => hf e (hmem e he hk) hk
  | some e =>
    obtain ⟨he, hk⟩ := findKey_mem hf
    exact h.sorted.findKey_eq_some.mpr
      ⟨List.mem_flatten.mpr ⟨_, List.getElem_mem hm.lt, he⟩, hk⟩

theorem findKey_eq_none_of_above (h : Ordered leaves) {key : Uint32}
    (ha : ∀ i < leaves.length, lastKeyAt leaves i < key) :
    findKey Entry.key leaves.flatten key = none := by
  rw [findKey_eq_none]
  intro e he hk
  obtain ⟨es, hes, he⟩ := List.mem_flatten.mp he
  obtain ⟨j, hj, rfl⟩ := List.getElem_of_mem hes
  exact absurd (hk ▸ h.le_lastKeyAt hj he) (not_le.mpr (ha j hj))

end Ordered

section Locate

variable {leaves : List (List Entry)} {total : ℕ} {page : ℕ → Option PageData} {m : ℕ}

/-- The children of a run lie in its range. -/
theorem Consecutive.bounds : ∀ {cs : List Child} {i j : ℕ}, Consecutive i cs j → ∀ c ∈ cs,
    i ≤ c.i ∧ 0 < c.n ∧ c.i + c.n ≤ j
  | [], _, _, _, c, hc => by cases hc
  | d :: cs, i, j, h, c, hc => by
    obtain ⟨hi, hn, hcon⟩ := h
    have hle := hcon.le
    rcases List.mem_cons.mp hc with rfl | hc
    · omega
    · have := hcon.bounds c hc
      omega

/-- One child covers leaf `m`; those before end before it, those behind end behind it. -/
theorem Consecutive.exists_covering : ∀ {cs : List Child} {i j : ℕ}, Consecutive i cs j → i ≤ m →
    m < j → ∃ k, ∃ hk : k < cs.length, cs[k].i ≤ m ∧
      (∀ l, (hl : l < cs.length) → l < k → cs[l].i + cs[l].n ≤ m) ∧
      (∀ l, (hl : l < cs.length) → k ≤ l → m < cs[l].i + cs[l].n)
  | [], i, j, h, him, hmj => by
    rw [Consecutive] at h; omega
  | c :: cs, i, j, h, him, hmj => by
    obtain ⟨hi, hn, hcon⟩ := h
    rcases Nat.lt_or_ge m (i + c.n) with hm | hm
    · refine ⟨0, by simp, ?_, fun l _ hl => absurd hl (Nat.not_lt_zero l), fun l hl _ => ?_⟩
      · simp only [List.getElem_cons_zero]; omega
      · cases l with
        | zero => simp only [List.getElem_cons_zero]; omega
        | succ l =>
          have hl' : l < cs.length := by simpa using hl
          have := hcon.bounds cs[l] (List.getElem_mem hl')
          simp only [List.getElem_cons_succ]; omega
    · obtain ⟨k, hk, h1, h2, h3⟩ := hcon.exists_covering hm hmj
      refine ⟨k + 1, by simpa using hk, by simpa using h1, fun l hl hlk => ?_, fun l hl hkl => ?_⟩
      · cases l with
        | zero => simp only [List.getElem_cons_zero]; omega
        | succ l => simpa using h2 l (by simpa using hl) (by omega)
      · obtain ⟨l, rfl⟩ : ∃ l', l = l' + 1 := ⟨l - 1, by omega⟩
        simpa using h3 l (by simpa using hl) (by omega)

/-- The descent for a key ends in its leaf. -/
theorem Subtree.locate (ho : Ordered leaves) {key : Uint32} (hm : IsLeafOf leaves key m) :
    ∀ {h fuel off i n : ℕ}, Subtree leaves total page h off i n → h < fuel → i ≤ m → m < i + n →
      i + n ≤ leaves.length → (locate page key fuel off).2 = some (total - m) := by
  intro h
  induction h with
  | zero =>
    intro fuel off i n hs hf him hmn _
    obtain ⟨fuel, rfl⟩ : ∃ f, fuel = f + 1 := ⟨fuel - 1, by omega⟩
    rw [BTreeNode.locate, if_pos hs.isLeaf_zero]
    obtain ⟨hn, hoff, -⟩ := hs
    obtain rfl : i = m := by omega
    rw [hoff]
  | succ h ih =>
    intro fuel off i n hs hf him hmn hlen
    obtain ⟨fuel, rfl⟩ : ∃ f, fuel = f + 1 := ⟨fuel - 1, by omega⟩
    rw [BTreeNode.locate, hs.isLeaf_succ]
    simp only [Bool.false_eq_true, if_false]
    obtain ⟨-, cs, -, hcon, ⟨node, hp, hnode⟩, hcs⟩ := hs
    obtain ⟨k, hk, hk1, hbefore, hbehind⟩ := hcon.exists_covering him hmn
    have hentry : ∀ l, (hl : l < cs.length) → node.entry l = Child.entry leaves cs[l] := by
      intro l hl
      rw [BTreeNode.entry, hnode.entries, List.getD_eq_getElem _ _ (by simpa using hl),
        List.getElem_map]
    have hfind : node.findChild key = some (node.entry k).value.val := by
      apply findChild_eq_some
      · rw [hnode.numKeys]; exact hk
      · intro l hl
        rw [hentry l (hl.trans hk)]
        have h1 := hbefore l (hl.trans hk) hl
        have h2 := hcon.bounds cs[l] (List.getElem_mem (hl.trans hk))
        exact hm.before _ (by omega)
      · intro l hkl hl
        rw [hnode.numKeys] at hl
        rw [hentry l hl]
        have h1 := hbehind l hl hkl
        have h2 := hcon.bounds cs[l] (List.getElem_mem hl)
        exact hm.le.trans (ho.lastKeyAt_le (by omega) (by omega))
    have hsub := (hcs cs[k] (List.getElem_mem hk)).2
    have hb := hcon.bounds cs[k] (List.getElem_mem hk)
    rw [nodeAt_of_page hp, hfind, hentry k hk, Child.entry_value hsub.node.2]
    exact ih hsub (by omega) hk1 (hbehind k hk le_rfl) (by omega)

theorem Subtree.locate_above {key : Uint32}
    (ha : ∀ i < leaves.length, lastKeyAt leaves i < key) {h fuel off i n : ℕ}
    (hs : Subtree leaves total page (h + 1) off i n) (hlen : i + n ≤ leaves.length) :
    (BTreeNode.locate page key fuel off).2 = none := by
  cases fuel with
  | zero => rfl
  | succ fuel =>
    rw [BTreeNode.locate, hs.isLeaf_succ]
    obtain ⟨-, cs, -, hcon, ⟨node, hp, hnode⟩, -⟩ := hs
    have hfind : node.findChild key = none := by
      apply findChild_eq_none
      intro l hl
      rw [hnode.numKeys] at hl
      have := hcon.bounds cs[l] (List.getElem_mem hl)
      rw [BTreeNode.entry, hnode.entries, List.getD_eq_getElem _ _ (by simpa using hl),
        List.getElem_map]
      exact ha _ (by omega)
    simp only [Bool.false_eq_true, if_false, nodeAt_of_page hp, hfind]

/-- A descent ends in a leaf, if anywhere. -/
theorem Subtree.locate_some {key : Uint32} : ∀ {h fuel off i n o : ℕ},
    Subtree leaves total page h off i n → (BTreeNode.locate page key fuel off).2 = some o →
      ∃ j < leaves.length, o = total - j := by
  intro h
  induction h with
  | zero =>
    intro fuel off i n o hs ho
    cases fuel with
    | zero => cases ho
    | succ fuel =>
      rw [BTreeNode.locate, if_pos hs.isLeaf_zero, Option.some.injEq] at ho
      obtain ⟨-, hoff, -, es, hes, -⟩ := hs
      obtain ⟨hi, -⟩ := List.getElem?_eq_some_iff.mp hes
      exact ⟨i, hi, ho ▸ hoff⟩
  | succ h ih =>
    intro fuel off i n o hs ho
    cases fuel with
    | zero => cases ho
    | succ fuel =>
      rw [BTreeNode.locate, hs.isLeaf_succ] at ho
      simp only [Bool.false_eq_true, if_false] at ho
      cases hc : (nodeAt page off).findChild key with
      | none => rw [hc] at ho; cases ho
      | some c =>
        rw [hc] at ho
        obtain ⟨i', n', hsub⟩ := hs.findChild hc
        exact ih hsub ho

/-- All pages that a descent visits are nodes of the tree. -/
theorem Subtree.mem_locate {key : Uint32} : ∀ {h fuel off i n o : ℕ},
    Subtree leaves total page h off i n → o ∈ (BTreeNode.locate page key fuel off).1 →
      ∃ h' i' n', Subtree leaves total page h' o i' n' := by
  intro h
  induction h with
  | zero =>
    intro fuel off i n o hs ho
    cases fuel with
    | zero => cases ho
    | succ fuel =>
      rw [BTreeNode.locate, if_pos hs.isLeaf_zero, List.mem_singleton] at ho
      exact ho ▸ ⟨_, _, _, hs⟩
  | succ h ih =>
    intro fuel off i n o hs ho
    cases fuel with
    | zero => cases ho
    | succ fuel =>
      rw [BTreeNode.locate, hs.isLeaf_succ] at ho
      simp only [Bool.false_eq_true, if_false] at ho
      cases hc : (nodeAt page off).findChild key with
      | none =>
        rw [hc, List.mem_singleton] at ho
        exact ho ▸ ⟨_, _, _, hs⟩
      | some c =>
        rw [hc, List.mem_cons] at ho
        rcases ho with rfl | ho
        · exact ⟨_, _, _, hs⟩
        · obtain ⟨i', n', hsub⟩ := hs.findChild hc
          exact ih hsub ho

end Locate

end BTreeNode

end MiniKvs
