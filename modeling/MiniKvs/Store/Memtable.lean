import MiniKvs.Memtable.AvlPointers
import MiniKvs.Store.Refinement

/-! The life of a memtable in memory: the store puts, looks up, scans, extracts leaves
and clears, in any order. Every call returns and answers as a sorted list would, and the
nodes in memory are those of the tree, one for each key. -/

namespace MiniKvs

open Lib Lib.TreeHeap AVLTree.Pointers

namespace AVLTree.Pointers

def scanMemtable (startKey endKey : Uint32) : ℕ → Ptr → List Entry → Code (List Entry)
  | 0, _, _ => diverge
  | _ + 1, none, result => return result
  | depth + 1, some a, result => do
    let result ← (do
      if startKey < (← key (some a)) then
        scanMemtable startKey endKey depth (← left (some a)) result
      else return result)
    let result ← (do
      if startKey ≤ (← key (some a)) ∧ (← key (some a)) ≤ endKey then
        return result ++ [⟨← key (some a), ← value (some a)⟩]
      else return result)
    if (← key (some a)) < endKey then
      scanMemtable startKey endKey depth (← right (some a)) result
    else return result

def extractLeafNodesFromAvl : ℕ → Ptr → List BTreeNode → Code (List BTreeNode)
  | 0, _, _ => diverge
  | _ + 1, none, leafNodes => return leafNodes
  | depth + 1, some a, leafNodes => do
    let leafNodes ← extractLeafNodesFromAvl depth (← left (some a)) leafNodes
    let leafNodes := BTreeNode.pushEntry leafNodes ⟨← key (some a), ← value (some a)⟩
    extractLeafNodesFromAvl depth (← right (some a)) leafNodes

section Traversals

variable {h : Heap Fields} {t : Linked Fields} {depth : ℕ}

theorem scanMemtable_returns {startKey endKey : Uint32} {result : List Entry} (ho : Owned h t)
    (hd : t.depth < depth) : Returns (scanMemtable startKey endKey depth t.ptr result) h
      (KVStore.scanMemtable startKey endKey (erase t) result) h := by
  induction t generalizing depth result with
  | nil =>
    obtain ⟨depth, rfl⟩ := Nat.exists_eq_succ_of_ne_zero (Nat.ne_of_gt hd)
    exact .pure ..
  | node a d l r ihl ihr =>
    obtain ⟨depth, rfl⟩ := Nat.exists_eq_succ_of_ne_zero (Nat.ne_of_gt (Nat.zero_lt_of_lt hd))
    rw [Linked.depth, Nat.succ_lt_succ_iff, max_lt_iff] at hd
    obtain ⟨-, -, -, -, -, hl, hr⟩ := owned_node.mp ho
    have hkey := key_returns ho
    rw [erase, KVStore.scanMemtable]
    generalize hr₁ : (if startKey < d.key then
      KVStore.scanMemtable startKey endKey (erase l) result else result) = result₁
    generalize hr₂ : (if startKey ≤ d.key ∧ d.key ≤ endKey then
      result₁ ++ [⟨d.key, d.value⟩] else result₁) = result₂
    have h₁ : Returns (do
        if startKey < (← key (some a)) then
          scanMemtable startKey endKey depth (← left (some a)) result
        else return result) h result₁ h := by
      refine hkey.bind ?_
      rw [← hr₁]
      split_ifs
      · exact (left_returns ho).bind (ihl hl hd.1)
      · exact .pure ..
    have h₂ : Returns (do
        if startKey ≤ (← key (some a)) ∧ (← key (some a)) ≤ endKey then
          return result₁ ++ [⟨← key (some a), ← value (some a)⟩]
        else return result₁) h result₂ h := by
      refine hkey.bind (hkey.bind ?_)
      rw [← hr₂]
      split_ifs
      · exact hkey.bind ((value_returns ho).bind (.pure ..))
      · exact .pure ..
    refine h₁.bind (h₂.bind (hkey.bind ?_))
    split_ifs
    · exact (right_returns ho).bind (ihr hr hd.2)
    · exact .pure ..

theorem extractLeafNodesFromAvl_returns {leafNodes : List BTreeNode} (ho : Owned h t)
    (hd : t.depth < depth) : Returns (extractLeafNodesFromAvl depth t.ptr leafNodes) h
      (BTreeNode.extractLeafNodesFromAvl (erase t) leafNodes) h := by
  induction t generalizing depth leafNodes with
  | nil =>
    obtain ⟨depth, rfl⟩ := Nat.exists_eq_succ_of_ne_zero (Nat.ne_of_gt hd)
    exact .pure ..
  | node a d l r ihl ihr =>
    obtain ⟨depth, rfl⟩ := Nat.exists_eq_succ_of_ne_zero (Nat.ne_of_gt (Nat.zero_lt_of_lt hd))
    rw [Linked.depth, Nat.succ_lt_succ_iff, max_lt_iff] at hd
    obtain ⟨-, -, -, -, -, hl, hr⟩ := owned_node.mp ho
    exact (left_returns ho).bind ((ihl hl hd.1).bind ((key_returns ho).bind
      ((value_returns ho).bind ((right_returns ho).bind (ihr hr hd.2)))))

end Traversals

end AVLTree.Pointers

/-- The root pointer and the memory of the nodes. -/
structure Memtable where
  root : Ptr
  heap : Heap Fields

namespace Memtable

def empty : Memtable := ⟨none, .empty⟩

section Calls

-- how many levels the recursion of a call may go down
variable (depth : ℕ)

def put (key value : Uint32) (m : Memtable) : Except TreeHeap.Fault Memtable := do
  let (root, heap) ← insertNode key value depth m.root m.heap
  .ok ⟨root, heap⟩

def get (key : Uint32) (m : Memtable) : Except TreeHeap.Fault (Uint32 × Memtable) := do
  let (value, heap) ← AVLTree.Pointers.get m.root key depth m.heap
  .ok (value, ⟨m.root, heap⟩)

def scan (startKey endKey : Uint32) (m : Memtable) :
    Except TreeHeap.Fault (List Entry × Memtable) := do
  let (result, heap) ← scanMemtable startKey endKey depth m.root [] m.heap
  .ok (result, ⟨m.root, heap⟩)

def extract (m : Memtable) : Except TreeHeap.Fault (List BTreeNode × Memtable) := do
  let (nodes, heap) ← extractLeafNodesFromAvl depth m.root [] m.heap
  .ok (nodes, ⟨m.root, heap⟩)

/-- Every call of `clear_recursive` ends with `root = nullptr`. -/
def clear (m : Memtable) : Except TreeHeap.Fault Memtable := do
  let ((), heap) ← clearRecursive depth m.root m.heap
  .ok ⟨none, heap⟩

end Calls

inductive Call
  | put (key value : Uint32)
  | get (key : Uint32)
  | scan (startKey endKey : Uint32)
  | extract
  | clear

inductive Reply
  | done
  | value (value : Uint32)
  | entries (result : List Entry)
  | leafNodes (nodes : List BTreeNode)

def step (depth : ℕ) : Call → Memtable → Except TreeHeap.Fault (Reply × Memtable)
  | .put key value, m => (m.put depth key value).map fun m => (.done, m)
  | .get key, m => (m.get depth key).map fun x => (.value x.1, x.2)
  | .scan startKey endKey, m => (m.scan depth startKey endKey).map fun x => (.entries x.1, x.2)
  | .extract, m => (m.extract depth).map fun x => (.leafNodes x.1, x.2)
  | .clear, m => (m.clear depth).map fun m => (.done, m)

/-! ### As a sorted list -/

def next : Call → List Entry → List Entry
  | .put key value, es => insertKey Entry.key ⟨key, value⟩ es
  | .clear, _ => []
  | _, es => es

def answer (es : List Entry) : Call → Reply
  | .put _ _ => .done
  | .get key => .value (((findKey Entry.key es key).map Entry.value).getD Utils.invalidValue)
  | .scan startKey endKey => .entries (entriesIn startKey endKey es)
  | .extract => .leafNodes ((chunks BTreeNode.maxKeys es).map BTreeNode.leafOf)
  | .clear => .done

/-- The memory holds a balanced search tree of these entries, and nothing else. -/
structure Holds (m : Memtable) (es : List Entry) (t : Linked Fields) : Prop where
  owned : Owned m.heap t
  whole : Whole m.heap t
  root : m.root = t.ptr
  entries : AVLTree.entries (erase t) = es
  balanced : AVLTree.Balanced (erase t)
  sorted : SortedBy Entry.key es

theorem holds_empty : empty.Holds [] .nil :=
  ⟨.nil _, fun i => iff_of_false (by simp [empty, Heap.empty]) List.not_mem_nil, rfl, rfl,
    trivial, sortedBy_nil⟩

theorem length_addrs (t : Linked Fields) : t.addrs.length = (AVLTree.entries (erase t)).length := by
  induction t with
  | nil => rfl
  | node a d l r ihl ihr =>
    simp only [Linked.addrs, erase, AVLTree.entries, List.length_cons, List.length_append, ihl, ihr]
    omega

/-- As many nodes are in memory as there are entries. -/
theorem Holds.ncard {m : Memtable} {es : List Entry} {t : Linked Fields} (h : m.Holds es t) :
    { a | (m.heap.cell a).isSome }.ncard = es.length := by
  have hset : { a | (m.heap.cell a).isSome } = (t.addrs.toFinset : Set ℕ) := by
    ext a
    rw [Set.mem_ofPred_eq, h.whole, Finset.mem_coe, List.mem_toFinset]
  rw [hset, Set.ncard_coe_finset, List.toFinset_card_of_nodup h.owned.nodup, length_addrs,
    h.entries]

/-! ### The height -/

theorem depth_eq (t : Linked Fields) : t.depth = AVLTree.trueHeight (erase t) := by
  induction t with
  | nil => rfl
  | node a d l r ihl ihr => rw [Linked.depth, erase, AVLTree.trueHeight, ihl, ihr]

/-- The sparsest balanced trees are the Fibonacci trees. -/
theorem fib_le_length {node : Node} (hb : AVLTree.Balanced node) :
    Nat.fib (AVLTree.trueHeight node + 2) ≤ (AVLTree.entries node).length + 1 := by
  induction node with
  | null => exact le_rfl
  | node key value height left right ihl ihr =>
    obtain ⟨-, h1, h2, hbl, hbr⟩ := hb
    rw [hbl.getHeight_eq, hbr.getHeight_eq] at h1 h2
    have hl := ihl hbl
    have hr := ihr hbr
    have hadd : Nat.fib (AVLTree.trueHeight (.node key value height left right) + 2) =
        Nat.fib (max (AVLTree.trueHeight left) (AVLTree.trueHeight right) + 1) +
        Nat.fib (max (AVLTree.trueHeight left) (AVLTree.trueHeight right) + 2) := Nat.fib_add_two
    rw [hadd, AVLTree.entries, List.length_append, List.length_cons]
    rcases le_total (AVLTree.trueHeight left) (AVLTree.trueHeight right) with hle | hle
    · have hmono := Nat.fib_mono (show AVLTree.trueHeight right + 1 ≤
        AVLTree.trueHeight left + 2 by omega)
      rw [max_eq_right hle]
      omega
    · have hmono := Nat.fib_mono (show AVLTree.trueHeight left + 1 ≤
        AVLTree.trueHeight right + 2 by omega)
      rw [max_eq_left hle]
      omega

theorem length_le_of_sorted {es : List Entry} (h : SortedBy Entry.key es) :
    es.length ≤ 4294967296 := by
  have hcard := h.nodup_keys.length_le_card
  rwa [List.length_map, Fintype.card_fin] at hcard

theorem Holds.fib_depth {m : Memtable} {es : List Entry} {t : Linked Fields} (h : m.Holds es t) :
    Nat.fib (t.depth + 2) ≤ es.length + 1 := by
  rw [depth_eq, ← h.entries]
  exact fib_le_length h.balanced

/-- No set of 32-bit keys makes the tree higher than 45. -/
theorem Holds.depth_lt {m : Memtable} {es : List Entry} {t : Linked Fields} (h : m.Holds es t) :
    t.depth < 46 := by
  have hfib := h.fib_depth
  have hlen := length_le_of_sorted h.sorted
  by_contra hge
  have hmono := Nat.fib_mono (show 48 ≤ t.depth + 2 by omega)
  have h48 : Nat.fib 48 = 4807526976 := by norm_num
  omega

/-! ### Calls -/

namespace Holds

variable {m : Memtable} {es : List Entry} {t : Linked Fields} {depth : ℕ}

theorem sortedTree (h : m.Holds es t) : SortedBy Entry.key (AVLTree.entries (erase t)) :=
  h.entries ▸ h.sorted

theorem put (h : m.Holds es t) (hd : t.depth < depth) (key value : Uint32) :
    ∃ m' t', m.put depth key value = .ok m' ∧ AVLTree.put (erase t) key value = .ok (erase t') ∧
      m'.Holds (insertKey Entry.key ⟨key, value⟩ es) t' := by
  obtain ⟨n, hn, hb, he⟩ := AVLTree.put_spec h.balanced h.sortedTree key value
  obtain ⟨p, heap, t', hret, hrep, rfl, rfl⟩ := insertNode_yields h.owned hd hn
  rw [← h.root] at hret
  refine ⟨⟨t'.ptr, heap⟩, t', bind_eq_ok.mpr ⟨_, hret, rfl⟩, hn, hrep.owned, hrep.whole h.whole,
    rfl, ?_, hb, h.sorted.insertKey _⟩
  rw [he, h.entries]

theorem get (h : m.Holds es t) (hd : t.depth < depth) (key : Uint32) :
    m.get depth key = .ok (AVLTree.get (erase t) key, m) := by
  have hret := get_returns h.owned hd key
  rw [← h.root] at hret
  exact bind_eq_ok.mpr ⟨_, hret, rfl⟩

theorem scan (h : m.Holds es t) (hd : t.depth < depth) (startKey endKey : Uint32) :
    m.scan depth startKey endKey = .ok (KVStore.scanMemtable startKey endKey (erase t) [], m) := by
  have hret : Returns (scanMemtable startKey endKey depth t.ptr []) m.heap _ m.heap :=
    scanMemtable_returns h.owned hd
  rw [← h.root] at hret
  exact bind_eq_ok.mpr ⟨_, hret, rfl⟩

theorem extract (h : m.Holds es t) (hd : t.depth < depth) :
    m.extract depth = .ok (BTreeNode.extractLeafNodesFromAvl (erase t) [], m) := by
  have hret : Returns (extractLeafNodesFromAvl depth t.ptr []) m.heap _ m.heap :=
    extractLeafNodesFromAvl_returns h.owned hd
  rw [← h.root] at hret
  exact bind_eq_ok.mpr ⟨_, hret, rfl⟩

theorem clear (h : m.Holds es t) (hd : t.depth < depth) :
    ∃ m', m.clear depth = .ok m' ∧ m'.Holds [] .nil := by
  obtain ⟨heap, hret, he⟩ := clearRecursive_erases h.owned hd
  rw [← h.root] at hret
  exact ⟨⟨none, heap⟩, bind_eq_ok.mpr ⟨_, hret, rfl⟩, .nil _, he.whole h.whole, rfl, rfl,
    trivial, sortedBy_nil⟩

/-- Every call answers as the list says. -/
theorem step (h : m.Holds es t) (hd : t.depth < depth) (call : Call) :
    ∃ m' t', Memtable.step depth call m = .ok (answer es call, m') ∧
      m'.Holds (next call es) t' := by
  cases call with
  | put key value =>
    obtain ⟨m', t', hput, -, h'⟩ := h.put hd key value
    exact ⟨m', t', map_eq_ok.mpr ⟨_, hput, rfl⟩, h'⟩
  | get key =>
    refine ⟨m, t, map_eq_ok.mpr ⟨_, h.get hd key, ?_⟩, h⟩
    rw [AVLTree.get_eq h.sortedTree, h.entries]
    rfl
  | scan startKey endKey =>
    refine ⟨m, t, map_eq_ok.mpr ⟨_, h.scan hd startKey endKey, ?_⟩, h⟩
    rw [scanMemtable_eq _ h.sortedTree, h.entries]
    rfl
  | extract =>
    refine ⟨m, t, map_eq_ok.mpr ⟨_, h.extract hd, ?_⟩, h⟩
    rw [BTreeNode.extractLeafNodesFromAvl_eq, h.entries]
    rfl
  | clear =>
    obtain ⟨m', hclear, h'⟩ := h.clear hd
    exact ⟨m', .nil, map_eq_ok.mpr ⟨_, hclear, rfl⟩, h'⟩

end Holds

/-! ### Runs -/

/-- Every run returns, so no call goes through a null pointer, to a deleted node or more
than 46 levels down, and none deletes a node twice. The memory is a balanced search tree
with a node for each key put since the last `clear`, and no higher than a Fibonacci tree
of that size. -/
theorem run_returns (spare : ℕ) (calls : List Call) :
    ∃ replies m t, run (step (46 + spare)) calls empty = .ok (replies, m) ∧
      Answers next (fun es call reply => reply = answer es call) [] calls replies ∧
      m.Holds (finalState next [] calls) t ∧ AVLTree.IsSearchTree (erase t) ∧
      AVLTree.IsAvl (erase t) ∧
      { a | (m.heap.cell a).isSome }.ncard = (finalState next [] calls).length ∧
      Nat.fib (t.depth + 2) ≤ (finalState next [] calls).length + 1 ∧ t.depth ≤ 45 := by
  obtain ⟨replies, m, hrun, ⟨t, h⟩, hans⟩ := run_simulates (step (46 + spare))
    (R := fun m es => ∃ t, m.Holds es t) (Q := fun es call reply => reply = answer es call)
    (fun m es call ⟨t, h⟩ _ _ => by
      obtain ⟨m', t', hstep, h'⟩ := h.step (Nat.lt_add_right spare h.depth_lt) call
      exact ⟨_, m', hstep, ⟨t', h'⟩, rfl⟩)
    ⟨.nil, holds_empty⟩ (alongTotal_true next [] calls) (along_true _ empty calls)
  exact ⟨replies, m, t, hrun, hans, h, AVLTree.isSearchTree_iff.mpr (h.entries ▸ h.sorted),
    h.balanced.isAvl, h.ncard, h.fib_depth, Nat.le_of_lt_succ h.depth_lt⟩

end Memtable

end MiniKvs
