import MiniKvs.Lib.Machine
import MiniKvs.Lib.SortedList
import MiniKvs.Utils

/-! The memtable (`avl_tree.cpp`). A rotation dereferences the child it lifts, so
it may fail; in a search tree it never does. -/

namespace MiniKvs

open Lib

structure Entry where
  key : Uint32
  value : Uint32
  deriving DecidableEq

/-- A `Node *`, with the stored height. -/
inductive Node
  | null
  | node (key value : Uint32) (height : ℕ) (left right : Node)
  deriving DecidableEq

namespace AVLTree

def getHeight : Node → ℕ
  | .null => 0
  | .node _ _ height _ _ => height

@[simp] theorem getHeight_null : getHeight .null = 0 := rfl

@[simp] theorem getHeight_node (key value : Uint32) (height : ℕ) (left right : Node) :
    getHeight (.node key value height left right) = height := rfl

def getBalance : Node → ℤ
  | .null => 0
  | .node _ _ _ left right => (getHeight left : ℤ) - getHeight right

/-- A node with its height computed from its children's. -/
def mkNode (key value : Uint32) (left right : Node) : Node :=
  .node key value (max (getHeight left) (getHeight right) + 1) left right

def rightRotate : Node → Outcome Node
  | .node key value _ (.node leftKey leftValue _ leftLeft leftRight) right =>
    .ok (mkNode leftKey leftValue leftLeft (mkNode key value leftRight right))
  | _ => .error .nullDereference

def leftRotate : Node → Outcome Node
  | .node key value _ left (.node rightKey rightValue _ rightLeft rightRight) =>
    .ok (mkNode rightKey rightValue (mkNode key value left rightLeft) rightRight)
  | _ => .error .nullDereference

/-- `node->key`, which the balance tests read off a child. -/
def keyOf : Node → Outcome Uint32
  | .null => .error .nullDereference
  | .node key _ _ _ _ => .ok key

/-- The end of `insert_node`, below which `key` was inserted. -/
def rebalance (key : Uint32) (nodeKey nodeValue : Uint32) (left right : Node) : Outcome Node := do
  let node := mkNode nodeKey nodeValue left right
  let balance := getBalance node
  if balance > 1 then
    let leftKey ← keyOf left
    if key < leftKey then rightRotate node
    else if key > leftKey then
      let left ← leftRotate left
      rightRotate (.node nodeKey nodeValue (getHeight node) left right)
    else .ok node
  else if balance < -1 then
    let rightKey ← keyOf right
    if key > rightKey then leftRotate node
    else if key < rightKey then
      let right ← rightRotate right
      leftRotate (.node nodeKey nodeValue (getHeight node) left right)
    else .ok node
  else .ok node

def insertNode (key value : Uint32) : Node → Outcome Node
  | .null => .ok (.node key value 1 .null .null)
  | .node nodeKey nodeValue height left right =>
    if key < nodeKey then do
      let left ← insertNode key value left
      rebalance key nodeKey nodeValue left right
    else if key > nodeKey then do
      let right ← insertNode key value right
      rebalance key nodeKey nodeValue left right
    else .ok (.node nodeKey value height left right)

def getNode (key : Uint32) : Node → Option Entry
  | .null => none
  | .node nodeKey nodeValue _ left right =>
    if key < nodeKey then getNode key left
    else if key > nodeKey then getNode key right
    else some ⟨nodeKey, nodeValue⟩

def put (root : Node) (key value : Uint32) : Outcome Node := insertNode key value root

def get (root : Node) (key : Uint32) : Uint32 :=
  match getNode key root with
  | none => Utils.invalidValue
  | some node => node.value

def clear : Node := .null

/-! ### The tree as a sorted list -/

/-- The entries in order. -/
def entries : Node → List Entry
  | .null => []
  | .node key value _ left right => entries left ++ ⟨key, value⟩ :: entries right

@[simp] theorem entries_mkNode (key value : Uint32) (left right : Node) :
    entries (mkNode key value left right) = entries left ++ ⟨key, value⟩ :: entries right := rfl

theorem rightRotate_entries {node node' : Node} (h : rightRotate node = .ok node') :
    entries node' = entries node := by
  rcases node with _ | ⟨k, v, h', _ | ⟨lk, lv, lh, ll, lr⟩, r⟩
  · cases h
  · cases h
  · cases h
    simp [entries]

theorem leftRotate_entries {node node' : Node} (h : leftRotate node = .ok node') :
    entries node' = entries node := by
  rcases node with _ | ⟨k, v, h', l, _ | ⟨rk, rv, rh, rl, rr⟩⟩
  · cases h
  · cases h
  · cases h
    simp [entries]

theorem sorted_node {key value : Uint32} {height : ℕ} {left right : Node} :
    SortedBy Entry.key (entries (.node key value height left right)) ↔
      SortedBy Entry.key (entries left) ∧ SortedBy Entry.key (entries right) ∧
        (∀ e ∈ entries left, e.key < key) ∧ ∀ e ∈ entries right, key < e.key := by
  rw [entries, sortedBy_append, sortedBy_cons]
  constructor
  · rintro ⟨hl, ⟨hr, hr'⟩, hlr⟩
    exact ⟨hl, hr', fun e he => hlr e he ⟨key, value⟩ (by simp), hr⟩
  · rintro ⟨hl, hr', hlk, hr⟩
    refine ⟨hl, ⟨hr, hr'⟩, fun e he e' he' => ?_⟩
    rcases List.mem_cons.mp he' with rfl | he'
    · exact hlk e he
    · exact (hlk e he).trans (hr e' he')

theorem rebalance_entries {key nodeKey nodeValue : Uint32} {left right node : Node}
    (h : rebalance key nodeKey nodeValue left right = .ok node) :
    entries node = entries left ++ ⟨nodeKey, nodeValue⟩ :: entries right := by
  simp only [rebalance] at h
  split_ifs at h with h1 h2
  · obtain ⟨leftKey, -, h⟩ := bind_eq_ok.mp h
    split_ifs at h with h3 h4
    · rw [rightRotate_entries h, entries_mkNode]
    · obtain ⟨left', hl, h⟩ := bind_eq_ok.mp h
      rw [rightRotate_entries h, entries, leftRotate_entries hl]
    · cases h; rfl
  · obtain ⟨rightKey, -, h⟩ := bind_eq_ok.mp h
    split_ifs at h with h3 h4
    · rw [leftRotate_entries h, entries_mkNode]
    · obtain ⟨right', hr, h⟩ := bind_eq_ok.mp h
      rw [leftRotate_entries h, entries, rightRotate_entries hr]
    · cases h; rfl
  · cases h; rfl

/-- Inserting a node inserts its entry. -/
theorem insertNode_entries {key value : Uint32} {node node' : Node}
    (hs : SortedBy Entry.key (entries node)) (h : insertNode key value node = .ok node') :
    entries node' = insertKey Entry.key ⟨key, value⟩ (entries node) := by
  induction node generalizing node' with
  | null => cases h; rfl
  | node k v height left right ihl ihr =>
    obtain ⟨hl, hr, hlk, -⟩ := sorted_node.mp hs
    simp only [insertNode] at h
    rw [entries]
    split_ifs at h with h1 h2
    · obtain ⟨left', hi, hb⟩ := bind_eq_ok.mp h
      have hlt : (⟨key, value⟩ : Entry).key < (⟨k, v⟩ : Entry).key := h1
      rw [rebalance_entries hb, ihl hl hi, insertKey_append_of_lt hlt]
    · obtain ⟨right', hi, hb⟩ := bind_eq_ok.mp h
      have hlt : ∀ e ∈ entries left ++ [⟨k, v⟩], e.key < (⟨key, value⟩ : Entry).key := by
        intro e he
        rcases List.mem_append.mp he with he | he
        · exact (hlk e he).trans h2
        · rw [List.mem_singleton.mp he]; exact h2
      rw [rebalance_entries hb, ihr hr hi]
      have := insertKey_append_of_gt hlt (entries right)
      rw [List.append_assoc, List.append_assoc] at this
      exact this.symm
    · cases h
      obtain rfl : key = k := le_antisymm (not_lt.mp h2) (not_lt.mp h1)
      have hlt : ∀ e ∈ entries left, e.key < (⟨key, value⟩ : Entry).key := hlk
      rw [entries, insertKey_append_self (b := ⟨key, v⟩) hlt rfl]

theorem entries_eq_nil {node : Node} : entries node = [] ↔ node = .null := by
  cases node with
  | null => simp [entries]
  | node => simp [entries]

theorem put_ne_null {root root' : Node} {key value : Uint32} (h : put root key value = .ok root') :
    root' ≠ .null := by
  rw [Ne, ← entries_eq_nil]
  cases root with
  | null => cases h; simp [entries]
  | node k v height left right =>
    simp only [put, insertNode] at h
    split_ifs at h
    · obtain ⟨left', -, hb⟩ := bind_eq_ok.mp h
      simp [rebalance_entries hb]
    · obtain ⟨right', -, hb⟩ := bind_eq_ok.mp h
      simp [rebalance_entries hb]
    · cases h; simp [entries]

theorem getNode_eq {key : Uint32} {node : Node} (hs : SortedBy Entry.key (entries node)) :
    getNode key node = findKey Entry.key (entries node) key := by
  induction node with
  | null => rfl
  | node k v height left right ihl ihr =>
    obtain ⟨hl, hr, hlk, hrk⟩ := sorted_node.mp hs
    rw [entries, findKey_append, findKey_cons]
    have hnone : k ≤ key → findKey Entry.key (entries left) key = none := fun hle =>
      findKey_eq_none.mpr fun e he => ((hlk e he).trans_le hle).ne
    have hnone' : key ≤ k → findKey Entry.key (entries right) key = none := fun hle =>
      findKey_eq_none.mpr fun e he => (hle.trans_lt (hrk e he)).ne'
    rcases lt_trichotomy key k with h | rfl | h
    · rw [getNode, if_pos h, ihl hl, hnone' h.le, if_neg h.ne', Option.or_none]
    · rw [getNode, if_neg (lt_irrefl _), if_neg (lt_irrefl _), hnone le_rfl, if_pos rfl,
        Option.none_or]
    · rw [getNode, if_neg h.not_gt, if_pos h, ihr hr, hnone h.le, if_neg h.ne, Option.none_or]

theorem get_eq {root : Node} (hs : SortedBy Entry.key (entries root)) (key : Uint32) :
    get root key = ((findKey Entry.key (entries root) key).map Entry.value).getD
      Utils.invalidValue := by
  rw [get, getNode_eq hs]
  cases findKey Entry.key (entries root) key <;> rfl

/-! ### Balance -/

/-- Stored heights are the heights, and sibling heights differ by at most one. -/
def Balanced : Node → Prop
  | .null => True
  | .node _ _ height left right => height = max (getHeight left) (getHeight right) + 1 ∧
      getHeight left ≤ getHeight right + 1 ∧ getHeight right ≤ getHeight left + 1 ∧
      Balanced left ∧ Balanced right

theorem balanced_mkNode {key value : Uint32} {left right : Node} :
    Balanced (mkNode key value left right) ↔ getHeight left ≤ getHeight right + 1 ∧
      getHeight right ≤ getHeight left + 1 ∧ Balanced left ∧ Balanced right := by
  simp [mkNode, Balanced]

@[simp] theorem getHeight_mkNode (key value : Uint32) (left right : Node) :
    getHeight (mkNode key value left right) = max (getHeight left) (getHeight right) + 1 := rfl

/-- The higher child is the one `key` was inserted into, or the node is a new leaf. -/
def Leans (key : Uint32) : Node → Prop
  | .null => False
  | .node k _ _ left right => (key < k ∧ getHeight left = getHeight right + 1) ∨
      (k < key ∧ getHeight right = getHeight left + 1) ∨ getHeight left + getHeight right = 0

/-- After an insertion a tree of height `h` is as high as before, or one higher
and then leaning to the new key. -/
def Grown (key : Uint32) (h : ℕ) (node : Node) : Prop :=
  getHeight node = h ∨ (getHeight node = h + 1 ∧ Leans key node)

/-- A side that is two higher and leans to the new key gives one height back, by a
rotation that finds the children it needs. -/
theorem rebalance_left {key : Uint32} (nodeKey nodeValue : Uint32) {left right : Node}
    (hbal : getHeight left = getHeight right + 2) (hlean : Leans key left) (hbl : Balanced left)
    (hbr : Balanced right) : ∃ node, rebalance key nodeKey nodeValue left right = .ok node ∧
      Balanced node ∧ getHeight node = getHeight right + 2 := by
  have hgt : getBalance (mkNode nodeKey nodeValue left right) > 1 := by
    simp only [mkNode, getBalance]
    omega
  simp only [rebalance, if_pos hgt]
  rcases left with _ | ⟨lk, lv, lh, ll, lr⟩
  · exact hlean.elim
  obtain ⟨hlh, hl1, hl2, hbll, hblr⟩ := hbl
  simp only [getHeight_node] at hbal
  rcases hlean with ⟨hk, hh⟩ | ⟨hk, hh⟩ | hh
  · refine ⟨mkNode lk lv ll (mkNode nodeKey nodeValue lr right), ?_, ?_, ?_⟩
    · simp only [keyOf, ok_bind, if_pos hk]; rfl
    · rw [balanced_mkNode, balanced_mkNode, getHeight_mkNode]
      exact ⟨by omega, by omega, hbll, by omega, by omega, hblr, hbr⟩
    · simp only [getHeight_mkNode]; omega
  · rcases lr with _ | ⟨rk, rv, rh, a, b⟩
    · simp at hh
    obtain ⟨hrh, hr1, hr2, hba, hbb⟩ := hblr
    simp only [getHeight_node] at hh hl1 hl2 hlh
    refine ⟨mkNode rk rv (mkNode lk lv ll a) (mkNode nodeKey nodeValue b right), ?_, ?_, ?_⟩
    · simp only [keyOf, ok_bind, if_neg hk.not_gt, if_pos hk]; rfl
    · rw [balanced_mkNode, balanced_mkNode, balanced_mkNode, getHeight_mkNode, getHeight_mkNode]
      exact ⟨by omega, by omega, ⟨by omega, by omega, hbll, hba⟩, by omega, by omega, hbb, hbr⟩
    · simp only [getHeight_mkNode]; omega
  · omega

theorem rebalance_right {key : Uint32} (nodeKey nodeValue : Uint32) {left right : Node}
    (hbal : getHeight right = getHeight left + 2) (hlean : Leans key right) (hbl : Balanced left)
    (hbr : Balanced right) : ∃ node, rebalance key nodeKey nodeValue left right = .ok node ∧
      Balanced node ∧ getHeight node = getHeight left + 2 := by
  have hgt : ¬ getBalance (mkNode nodeKey nodeValue left right) > 1 := by
    simp only [mkNode, getBalance]
    omega
  have hlt : getBalance (mkNode nodeKey nodeValue left right) < -1 := by
    simp only [mkNode, getBalance]
    omega
  simp only [rebalance, if_neg hgt, if_pos hlt]
  rcases right with _ | ⟨rk, rv, rh, rl, rr⟩
  · exact hlean.elim
  obtain ⟨hrh, hr1, hr2, hbrl, hbrr⟩ := hbr
  simp only [getHeight_node] at hbal
  rcases hlean with ⟨hk, hh⟩ | ⟨hk, hh⟩ | hh
  · rcases rl with _ | ⟨lk, lv, lh, a, b⟩
    · simp at hh
    obtain ⟨hlh, hl1, hl2, hba, hbb⟩ := hbrl
    simp only [getHeight_node] at hh hr1 hr2 hrh
    refine ⟨mkNode lk lv (mkNode nodeKey nodeValue left a) (mkNode rk rv b rr), ?_, ?_, ?_⟩
    · simp only [keyOf, ok_bind, if_neg hk.not_gt, gt_iff_lt, if_pos hk]; rfl
    · rw [balanced_mkNode, balanced_mkNode, balanced_mkNode, getHeight_mkNode, getHeight_mkNode]
      exact ⟨by omega, by omega, ⟨by omega, by omega, hbl, hba⟩, by omega, by omega, hbb, hbrr⟩
    · simp only [getHeight_mkNode]; omega
  · refine ⟨mkNode rk rv (mkNode nodeKey nodeValue left rl) rr, ?_, ?_, ?_⟩
    · simp only [keyOf, ok_bind, gt_iff_lt, if_pos hk]; rfl
    · rw [balanced_mkNode, balanced_mkNode, getHeight_mkNode]
      exact ⟨by omega, by omega, ⟨by omega, by omega, hbl, hbrl⟩, hbrr⟩
    · simp only [getHeight_mkNode]; omega
  · omega

theorem rebalance_even {key : Uint32} (nodeKey nodeValue : Uint32) {left right : Node}
    (h1 : getHeight left ≤ getHeight right + 1) (h2 : getHeight right ≤ getHeight left + 1) :
    rebalance key nodeKey nodeValue left right = .ok (mkNode nodeKey nodeValue left right) := by
  have hgt : ¬ getBalance (mkNode nodeKey nodeValue left right) > 1 := by
    simp only [mkNode, getBalance]
    omega
  have hlt : ¬ getBalance (mkNode nodeKey nodeValue left right) < -1 := by
    simp only [mkNode, getBalance]
    omega
  simp only [rebalance, if_neg hgt, if_neg hlt]

/-- A node one side of which has grown is rebalanced without touching a null child. -/
theorem rebalance_balanced (nodeValue : Uint32) {key nodeKey : Uint32} {left right : Node}
    {hl hr : ℕ} (h1 : hl ≤ hr + 1) (h2 : hr ≤ hl + 1) (hbl : Balanced left) (hbr : Balanced right)
    (hside : (key < nodeKey ∧ Grown key hl left ∧ getHeight right = hr) ∨
      (nodeKey < key ∧ getHeight left = hl ∧ Grown key hr right)) :
    ∃ node, rebalance key nodeKey nodeValue left right = .ok node ∧ Balanced node ∧
      Grown key (max hl hr + 1) node := by
  rcases hside with ⟨hk, hg, rfl⟩ | ⟨hk, rfl, hg⟩
  · by_cases hbal : getHeight left = getHeight right + 2
    · obtain ⟨hgl, hlean⟩ := hg.resolve_left (by omega)
      obtain ⟨node, hn, hb, hh⟩ := rebalance_left nodeKey nodeValue hbal hlean hbl hbr
      exact ⟨node, hn, hb, .inl (by omega)⟩
    · have hb1 : getHeight left ≤ getHeight right + 1 := by rcases hg with hg | ⟨hg, -⟩ <;> omega
      have hb2 : getHeight right ≤ getHeight left + 1 := by rcases hg with hg | ⟨hg, -⟩ <;> omega
      refine ⟨_, rebalance_even nodeKey nodeValue hb1 hb2,
        balanced_mkNode.mpr ⟨hb1, hb2, hbl, hbr⟩, ?_⟩
      rw [Grown, getHeight_mkNode]
      by_cases hc : getHeight left = hl + 1 ∧ getHeight left = getHeight right + 1
      · exact .inr ⟨by omega, .inl ⟨hk, hc.2⟩⟩
      · exact .inl (by rcases hg with hg | ⟨hg, -⟩ <;> omega)
  · by_cases hbal : getHeight right = getHeight left + 2
    · obtain ⟨hgr, hlean⟩ := hg.resolve_left (by omega)
      obtain ⟨node, hn, hb, hh⟩ := rebalance_right nodeKey nodeValue hbal hlean hbl hbr
      exact ⟨node, hn, hb, .inl (by omega)⟩
    · have hb1 : getHeight left ≤ getHeight right + 1 := by rcases hg with hg | ⟨hg, -⟩ <;> omega
      have hb2 : getHeight right ≤ getHeight left + 1 := by rcases hg with hg | ⟨hg, -⟩ <;> omega
      refine ⟨_, rebalance_even nodeKey nodeValue hb1 hb2,
        balanced_mkNode.mpr ⟨hb1, hb2, hbl, hbr⟩, ?_⟩
      rw [Grown, getHeight_mkNode]
      by_cases hc : getHeight right = hr + 1 ∧ getHeight right = getHeight left + 1
      · exact .inr ⟨by omega, .inr (.inl ⟨hk, hc.2⟩)⟩
      · exact .inl (by rcases hg with hg | ⟨hg, -⟩ <;> omega)

theorem insertNode_balanced (key value : Uint32) {node : Node} (h : Balanced node) :
    ∃ node', insertNode key value node = .ok node' ∧ Balanced node' ∧
      Grown key (getHeight node) node' := by
  induction node with
  | null => exact ⟨_, rfl, by simp [Balanced], .inr ⟨rfl, .inr (.inr rfl)⟩⟩
  | node k v height left right ihl ihr =>
    obtain ⟨hh, h1, h2, hbl, hbr⟩ := h
    simp only [insertNode]
    split_ifs with hlt hgt
    · obtain ⟨left', hi, hb, hg⟩ := ihl hbl
      obtain ⟨node', hr, hb', hg'⟩ := rebalance_balanced v h1 h2 hb hbr
        (.inl ⟨hlt, hg, rfl⟩)
      exact ⟨node', by rw [hi, ok_bind, hr], hb', by rw [getHeight_node, hh]; exact hg'⟩
    · obtain ⟨right', hi, hb, hg⟩ := ihr hbr
      obtain ⟨node', hr, hb', hg'⟩ := rebalance_balanced v h1 h2 hbl hb
        (.inr ⟨hgt, rfl, hg⟩)
      exact ⟨node', by rw [hi, ok_bind, hr], hb', by rw [getHeight_node, hh]; exact hg'⟩
    · exact ⟨_, rfl, ⟨hh, h1, h2, hbl, hbr⟩, .inl rfl⟩

/-- `put` never fails on a balanced search tree, keeps it one and inserts the entry. -/
theorem put_spec {root : Node} (hb : Balanced root) (hs : SortedBy Entry.key (entries root))
    (key value : Uint32) : ∃ root', put root key value = .ok root' ∧ Balanced root' ∧
      entries root' = insertKey Entry.key ⟨key, value⟩ (entries root) := by
  obtain ⟨root', h, hb', -⟩ := insertNode_balanced key value hb
  exact ⟨root', h, hb', insertNode_entries hs h⟩

/-! ### Runs of puts -/

/-- `put` of every pair in turn. -/
def putAll (root : Node) : List (Uint32 × Uint32) → Outcome Node
  | [] => .ok root
  | (key, value) :: pairs => do
    let root ← put root key value
    putAll root pairs

/-- The number of nodes on a longest path. -/
def trueHeight : Node → ℕ
  | .null => 0
  | .node _ _ _ left right => max (trueHeight left) (trueHeight right) + 1

/-- Every key on the left of a node is smaller, every key on the right larger. -/
def IsSearchTree : Node → Prop
  | .null => True
  | .node key _ _ left right => (∀ e ∈ entries left, e.key < key) ∧
      (∀ e ∈ entries right, key < e.key) ∧ IsSearchTree left ∧ IsSearchTree right

/-- At every node the stored height is the height, and the children's heights
differ by at most one. -/
def IsAvl : Node → Prop
  | .null => True
  | .node key value height left right =>
      height = trueHeight (.node key value height left right) ∧
      trueHeight left ≤ trueHeight right + 1 ∧ trueHeight right ≤ trueHeight left + 1 ∧
      IsAvl left ∧ IsAvl right

theorem isSearchTree_iff {node : Node} :
    IsSearchTree node ↔ SortedBy Entry.key (entries node) := by
  induction node with
  | null => exact iff_of_true trivial sortedBy_nil
  | node key value height left right ihl ihr =>
    rw [IsSearchTree, ihl, ihr, sorted_node]
    tauto

theorem Balanced.getHeight_eq {node : Node} (h : Balanced node) :
    getHeight node = trueHeight node := by
  induction node with
  | null => rfl
  | node key value height left right ihl ihr =>
    obtain ⟨hh, -, -, hl, hr⟩ := h
    rw [getHeight_node, hh, ihl hl, ihr hr, trueHeight]

theorem Balanced.isAvl {node : Node} (h : Balanced node) : IsAvl node := by
  induction node with
  | null => trivial
  | node key value height left right ihl ihr =>
    have hheight := h.getHeight_eq
    obtain ⟨-, h1, h2, hl, hr⟩ := h
    rw [hl.getHeight_eq, hr.getHeight_eq] at h1 h2
    exact ⟨hheight, h1, h2, ihl hl, ihr hr⟩

/-- The value of the last pair with this key. -/
def lastPut (pairs : List (Uint32 × Uint32)) (key : Uint32) : Option Uint32 :=
  (pairs.reverse.find? fun pair => pair.1 = key).map Prod.snd

theorem lastPut_cons (pair : Uint32 × Uint32) (pairs : List (Uint32 × Uint32)) (key : Uint32) :
    lastPut (pair :: pairs) key =
      (lastPut pairs key).or (if pair.1 = key then some pair.2 else none) := by
  unfold lastPut
  rw [List.reverse_cons, List.find?_append]
  cases pairs.reverse.find? fun pair => pair.1 = key with
  | some p => rfl
  | none => by_cases h : pair.1 = key <;> simp [h]

/-- A run of puts never fails, and leaves a balanced search tree in which every key
has the value last put, or the one it had before. -/
theorem putAll_spec : ∀ (pairs : List (Uint32 × Uint32)) {root : Node}, Balanced root →
    SortedBy Entry.key (entries root) →
    ∃ root', putAll root pairs = .ok root' ∧ Balanced root' ∧
      SortedBy Entry.key (entries root') ∧
      ∀ key, (findKey Entry.key (entries root') key).map Entry.value =
        (lastPut pairs key).or ((findKey Entry.key (entries root) key).map Entry.value)
  | [], root, hb, hs => ⟨root, rfl, hb, hs, fun _ => rfl⟩
  | (k, v) :: pairs, root, hb, hs => by
    obtain ⟨root₁, h1, hb1, he1⟩ := put_spec hb hs k v
    have hs1 : SortedBy Entry.key (entries root₁) := by rw [he1]; exact hs.insertKey _
    obtain ⟨root', h2, hb2, hs2, hfind⟩ := putAll_spec pairs hb1 hs1
    refine ⟨root', ?_, hb2, hs2, fun key => ?_⟩
    · rw [putAll, h1, ok_bind, h2]
    · rw [hfind key, he1, findKey_insertKey, lastPut_cons, Option.or_assoc]
      congr 1
      by_cases hk : k = key
      · rw [if_pos hk, if_pos hk]; rfl
      · rw [if_neg hk, if_neg hk, Option.none_or]

theorem putAll_correct (pairs : List (Uint32 × Uint32)) :
    ∃ root, putAll .null pairs = .ok root ∧ IsSearchTree root ∧ IsAvl root ∧
      ∀ key, get root key = (lastPut pairs key).getD Utils.invalidValue := by
  obtain ⟨root, h, hb, hs, hfind⟩ := @putAll_spec pairs .null trivial sortedBy_nil
  refine ⟨root, h, isSearchTree_iff.mpr hs, hb.isAvl, fun key => ?_⟩
  rw [get_eq hs, hfind key]
  simp [entries]

/-- Key 7 is put twice, and the third put lifts it to the root by two rotations. -/
example : putAll .null [(9, 1), (5, 2), (7, 3), (7, 4)] =
    .ok (.node 7 4 2 (.node 5 2 1 .null .null) (.node 9 1 1 .null .null)) := by decide

end AVLTree

end MiniKvs
