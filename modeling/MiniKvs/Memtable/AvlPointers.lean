import MiniKvs.Lib.TreeHeap
import MiniKvs.Memtable.AvlTree

/-! The memtable as `avl_tree.cpp` has it: nodes in memory, linked by pointers and
changed in place. It does what the tree of `AVLTree` does, and never dereferences a null
pointer or a deleted node; every node it has made is in the tree until `clear`. -/

namespace MiniKvs

open Lib Lib.TreeHeap

namespace AVLTree.Pointers

structure Fields where
  key : Uint32
  value : Uint32
  height : ℕ
  deriving DecidableEq

/-- `Node *` -/
abbrev Ptr := Option ℕ

abbrev Code := Prog Fields

/-! ### Fields -/

def key (node : Ptr) : Code Uint32 := do return (← deref node).data.key

def value (node : Ptr) : Code Uint32 := do return (← deref node).data.value

def left (node : Ptr) : Code Ptr := do return (← deref node).left

def right (node : Ptr) : Code Ptr := do return (← deref node).right

def setLeft (node child : Ptr) : Code Unit := assign node fun c => { c with left := child }

def setRight (node child : Ptr) : Code Unit := assign node fun c => { c with right := child }

def setValue (node : Ptr) (value : Uint32) : Code Unit :=
  assign node fun c => { c with data := { c.data with value := value } }

def setHeight (node : Ptr) (height : ℕ) : Code Unit :=
  assign node fun c => { c with data := { c.data with height := height } }

/-! ### Balancing -/

def getHeight : Ptr → Code ℕ
  | none => pure 0
  | some a => do return (← deref (some a)).data.height

def getBalance : Ptr → Code ℤ
  | none => pure 0
  | some a => do
    let leftHeight ← getHeight (← left (some a))
    let rightHeight ← getHeight (← right (some a))
    return leftHeight - rightHeight

/-- `node->height = std::max(get_height(node->left), get_height(node->right)) + 1` -/
def updateHeight (node : Ptr) : Code Unit := do
  let leftHeight ← getHeight (← left node)
  let rightHeight ← getHeight (← right node)
  setHeight node (max leftHeight rightHeight + 1)

def rightRotate (node : Ptr) : Code Ptr := do
  let left ← left node
  let leftRight ← right left
  setRight left node
  setLeft node leftRight
  updateHeight node
  updateHeight left
  return left

def leftRotate (node : Ptr) : Code Ptr := do
  let right ← right node
  let rightLeft ← left right
  setLeft right node
  setRight node rightLeft
  updateHeight node
  updateHeight right
  return right

/-- `&&`, which reads no field of a null child. -/
def both (p : Prop) [Decidable p] (q : Code Bool) : Code Bool := if p then q else pure false

/-- The end of `insert_node`, below which `newKey` was inserted. -/
def rebalance (newKey : Uint32) (node : Ptr) : Code Ptr := do
  updateHeight node
  let balance ← getBalance node
  if ← both (balance > 1) (do return decide (newKey < (← key (← left node)))) then
    rightRotate node
  else if ← both (balance < -1) (do return decide (newKey > (← key (← right node)))) then
    leftRotate node
  else if ← both (balance > 1) (do return decide (newKey > (← key (← left node)))) then
    let child ← leftRotate (← left node)
    setLeft node child
    rightRotate node
  else if ← both (balance < -1) (do return decide (newKey < (← key (← right node)))) then
    let child ← rightRotate (← right node)
    setRight node child
    leftRotate node
  else return node

/-! ### The tree's functions -/

def insertNode (newKey newValue : Uint32) : ℕ → Ptr → Code Ptr
  | 0, _ => diverge
  | _ + 1, none => alloc ⟨newKey, newValue, 1⟩
  | depth + 1, some a => do
    if newKey < (← key (some a)) then
      let child ← insertNode newKey newValue depth (← left (some a))
      setLeft (some a) child
      rebalance newKey (some a)
    else if newKey > (← key (some a)) then
      let child ← insertNode newKey newValue depth (← right (some a))
      setRight (some a) child
      rebalance newKey (some a)
    else
      setValue (some a) newValue
      return some a

def getNode (searchKey : Uint32) : ℕ → Ptr → Code Ptr
  | 0, _ => diverge
  | _ + 1, none => return none
  | depth + 1, some a => do
    if searchKey < (← key (some a)) then getNode searchKey depth (← left (some a))
    else if searchKey > (← key (some a)) then getNode searchKey depth (← right (some a))
    else return some a

/-- `get`, with the levels that the search may go down. -/
def get (root : Ptr) (searchKey : Uint32) (depth : ℕ) : Code Uint32 := do
  match ← getNode searchKey depth root with
  | none => return Utils.invalidValue
  | some a => value (some a)

def clearRecursive : ℕ → Ptr → Code Unit
  | 0, _ => diverge
  | _ + 1, none => return ()
  | depth + 1, some a => do
    clearRecursive depth (← left (some a))
    clearRecursive depth (← right (some a))
    free (some a)

/-! ### Reading the tree -/

def erase : Linked Fields → Node
  | .nil => .null
  | .node _ d l r => .node d.key d.value d.height (erase l) (erase r)

section Reading

variable {h : Heap Fields} {a : ℕ} {d : Fields} {l r t : Linked Fields}

theorem key_returns (ho : Owned h (.node a d l r)) : Returns (key (some a)) h d.key h :=
  (deref_node ho).bind (.pure ..)

theorem value_returns (ho : Owned h (.node a d l r)) : Returns (value (some a)) h d.value h :=
  (deref_node ho).bind (.pure ..)

theorem left_returns (ho : Owned h (.node a d l r)) : Returns (left (some a)) h l.ptr h :=
  (deref_node ho).bind (.pure ..)

theorem right_returns (ho : Owned h (.node a d l r)) : Returns (right (some a)) h r.ptr h :=
  (deref_node ho).bind (.pure ..)

theorem getHeight_returns (ho : Owned h t) :
    Returns (getHeight t.ptr) h (AVLTree.getHeight (erase t)) h := by
  cases t with
  | nil => exact .pure ..
  | node a d l r => exact (deref_node ho).bind (.pure ..)

theorem getBalance_returns (ho : Owned h t) :
    Returns (getBalance t.ptr) h (AVLTree.getBalance (erase t)) h := by
  cases t with
  | nil => exact .pure ..
  | node a d l r =>
    obtain ⟨-, -, -, -, -, hl, hr⟩ := owned_node.mp ho
    exact (left_returns ho).bind ((getHeight_returns hl).bind
      ((right_returns ho).bind ((getHeight_returns hr).bind (.pure ..))))

end Reading

/-! ### Rotations -/

/-- The result points to a tree that is `n` when the addresses are left out. -/
def Is (n : Node) (p : Ptr) (t : Linked Fields) : Prop := p = t.ptr ∧ erase t = n

section Rotations

variable {h : Heap Fields} {a b : ℕ} {d e : Fields} {l r s t : Linked Fields} {n : Node}

theorem updateHeight_yields (ho : Owned h (.node a d l r)) :
    Yields (updateHeight (some a)) h (.node a d l r) fun _ t => t.ptr = some a ∧
      t = .node a ⟨d.key, d.value, max (AVLTree.getHeight (erase l))
        (AVLTree.getHeight (erase r)) + 1⟩ l r := by
  obtain ⟨-, -, -, -, -, hl, hr⟩ := owned_node.mp ho
  refine .read (left_returns ho) (.read (getHeight_returns hl) (.read (right_returns ho)
    (.read (getHeight_returns hr) ?_)))
  obtain ⟨h', hret, hrep⟩ := assign_data ho fun d : Fields => { d with
    height := max (AVLTree.getHeight (erase l)) (AVLTree.getHeight (erase r)) + 1 }
  exact ⟨(), h', _, hret, hrep, rfl, rfl⟩

theorem rightRotate_yields (ho : Owned h t) (hn : AVLTree.rightRotate (erase t) = .ok n) :
    Yields (rightRotate t.ptr) h t (Is n) := by
  rcases t with _ | ⟨a, d, _ | ⟨b, e, l, r⟩, s⟩
  · cases hn
  · cases hn
  cases hn
  obtain ⟨-, -, -, -, -, hl, -⟩ := owned_node.mp ho
  refine .read (left_returns ho) (.read (right_returns hl) (.relink_right ho fun h₁ ho₁ => ?_))
  -- the node is the right child now, and is updated first
  obtain ⟨-, -, -, -, -, -, hr₁⟩ := owned_node.mp ho₁
  refine (Yields.right ho₁ (updateHeight_yields hr₁) fun _ _ hq => hq.1).bind ?_
  rintro - h₂ - ho₂ ⟨-, rfl, -, rfl⟩
  refine (updateHeight_yields ho₂).bind ?_
  rintro - h₃ - ho₃ ⟨-, rfl⟩
  exact .ret ho₃ ⟨rfl, rfl⟩

theorem leftRotate_yields (ho : Owned h t) (hn : AVLTree.leftRotate (erase t) = .ok n) :
    Yields (leftRotate t.ptr) h t (Is n) := by
  rcases t with _ | ⟨a, d, s, _ | ⟨b, e, l, r⟩⟩
  · cases hn
  · cases hn
  cases hn
  obtain ⟨-, -, -, -, -, -, hr⟩ := owned_node.mp ho
  refine .read (right_returns ho) (.read (left_returns hr) (.relink_left ho fun h₁ ho₁ => ?_))
  obtain ⟨-, -, -, -, -, hl₁, -⟩ := owned_node.mp ho₁
  refine (Yields.left ho₁ (updateHeight_yields hl₁) fun _ _ hq => hq.1).bind ?_
  rintro - h₂ - ho₂ ⟨-, rfl, -, rfl⟩
  refine (updateHeight_yields ho₂).bind ?_
  rintro - h₃ - ho₃ ⟨-, rfl⟩
  exact .ret ho₃ ⟨rfl, rfl⟩

end Rotations

/-! ### Insertion -/

section Insertion

variable {h : Heap Fields} {a : ℕ} {d : Fields} {l r t : Linked Fields} {n : Node}
  {newKey newValue : Uint32}

theorem both_pos {p : Prop} [Decidable p] {x : Code Bool} {b : Bool} (hp : p)
    (hx : Returns x h b h) : Returns (both p x) h b h := by
  rwa [both, if_pos hp]

theorem both_neg {p : Prop} [Decidable p] (hp : ¬ p) (x : Code Bool) :
    Returns (both p x) h false h := by
  rw [both, if_neg hp]
  exact .pure ..

/-- The key of the left child, which a test compares with the new one. -/
theorem left_test (ho : Owned h (.node a d l r)) {k : Uint32}
    (hk : AVLTree.keyOf (erase l) = .ok k) (q : Uint32 → Bool) :
    Returns (do return q (← key (← left (some a)))) h (q k) h := by
  obtain ⟨-, -, -, -, -, hl, -⟩ := owned_node.mp ho
  cases l with
  | nil => cases hk
  | node b e l₁ l₂ =>
    cases hk
    exact (left_returns ho).bind ((key_returns hl).bind (.pure ..))

theorem right_test (ho : Owned h (.node a d l r)) {k : Uint32}
    (hk : AVLTree.keyOf (erase r) = .ok k) (q : Uint32 → Bool) :
    Returns (do return q (← key (← right (some a)))) h (q k) h := by
  obtain ⟨-, -, -, -, -, -, hr⟩ := owned_node.mp ho
  cases r with
  | nil => cases hk
  | node b e r₁ r₂ =>
    cases hk
    exact (right_returns ho).bind ((key_returns hr).bind (.pure ..))

theorem rebalance_yields (ho : Owned h (.node a d l r))
    (hn : AVLTree.rebalance newKey d.key d.value (erase l) (erase r) = .ok n) :
    Yields (rebalance newKey (some a)) h (.node a d l r) (Is n) := by
  refine (updateHeight_yields ho).bind ?_
  rintro - h₁ - ho₁ ⟨-, rfl⟩
  obtain ⟨-, -, -, -, -, hl, hr⟩ := owned_node.mp ho₁
  refine .read (getBalance_returns ho₁) ?_
  simp only [AVLTree.rebalance] at hn
  change Yields (do
    if ← both (AVLTree.getBalance (AVLTree.mkNode d.key d.value (erase l) (erase r)) > 1) _ then _
    else _) _ _ _
  split_ifs at hn with hgt hlt
  · have hnot : ¬ AVLTree.getBalance (AVLTree.mkNode d.key d.value (erase l) (erase r)) < -1 :=
      fun h => absurd (hgt.trans h) (by norm_num)
    obtain ⟨leftKey, hkey, hn⟩ := bind_eq_ok.mp hn
    refine .read (both_pos hgt (left_test ho₁ hkey fun k => decide (newKey < k))) ?_
    split_ifs at hn with hk hk'
    · rw [decide_eq_true hk, if_pos rfl]
      exact rightRotate_yields ho₁ hn
    all_goals
      rw [decide_eq_false hk, if_neg Bool.false_ne_true]
      refine .read (both_neg hnot _) ?_
      refine .read (both_pos hgt (left_test ho₁ hkey fun k => decide (newKey > k))) ?_
    · rw [decide_eq_true hk', if_pos rfl]
      obtain ⟨n', hn', hn⟩ := bind_eq_ok.mp hn
      refine .read (left_returns ho₁) (.bind_left ho₁ (leftRotate_yields hl hn') ?_)
      rintro h₂ l' ho₂ rfl
      exact rightRotate_yields ho₂ hn
    · rw [decide_eq_false hk', if_neg Bool.false_ne_true]
      refine .read (both_neg hnot _) ?_
      cases hn
      exact .ret ho₁ ⟨rfl, rfl⟩
  · obtain ⟨rightKey, hkey, hn⟩ := bind_eq_ok.mp hn
    refine .read (both_neg hgt _) ?_
    refine .read (both_pos hlt (right_test ho₁ hkey fun k => decide (newKey > k))) ?_
    split_ifs at hn with hk hk'
    · rw [decide_eq_true hk, if_pos rfl]
      exact leftRotate_yields ho₁ hn
    all_goals
      rw [decide_eq_false hk, if_neg Bool.false_ne_true]
      refine .read (both_neg hgt _) ?_
      refine .read (both_pos hlt (right_test ho₁ hkey fun k => decide (newKey < k))) ?_
    · rw [decide_eq_true hk', if_pos rfl]
      obtain ⟨n', hn', hn⟩ := bind_eq_ok.mp hn
      refine .read (right_returns ho₁) (.bind_right ho₁ (rightRotate_yields hr hn') ?_)
      rintro h₂ r' ho₂ rfl
      exact leftRotate_yields ho₂ hn
    · rw [decide_eq_false hk', if_neg Bool.false_ne_true]
      cases hn
      exact .ret ho₁ ⟨rfl, rfl⟩
  · refine .read (both_neg hgt _) (.read (both_neg hlt _) (.read (both_neg hgt _)
      (.read (both_neg hlt _) ?_)))
    cases hn
    exact .ret ho₁ ⟨rfl, rfl⟩

/-- Enough levels for the tree are enough for the recursion. -/
theorem insertNode_yields {depth : ℕ} (ho : Owned h t) (hd : t.depth < depth)
    (hn : AVLTree.insertNode newKey newValue (erase t) = .ok n) :
    Yields (insertNode newKey newValue depth t.ptr) h t (Is n) := by
  induction t generalizing depth n h with
  | nil =>
    obtain ⟨depth, rfl⟩ := Nat.exists_eq_succ_of_ne_zero (Nat.ne_of_gt hd)
    cases hn
    obtain ⟨h', hret, hrep⟩ := alloc_nil h (⟨newKey, newValue, 1⟩ : Fields)
    exact ⟨_, h', _, hret, hrep, rfl, rfl⟩
  | node a d l r ihl ihr =>
    obtain ⟨depth, rfl⟩ := Nat.exists_eq_succ_of_ne_zero (Nat.ne_of_gt (Nat.zero_lt_of_lt hd))
    rw [Linked.depth, Nat.succ_lt_succ_iff, max_lt_iff] at hd
    obtain ⟨-, -, -, -, -, hl, hr⟩ := owned_node.mp ho
    simp only [erase, AVLTree.insertNode] at hn
    refine .read (key_returns ho) ?_
    split_ifs at hn with hlt hgt
    · rw [if_pos hlt]
      obtain ⟨n', hn', hn⟩ := bind_eq_ok.mp hn
      refine .read (left_returns ho) (.bind_left ho (ihl hl hd.1 hn') ?_)
      rintro h' l' ho' rfl
      exact rebalance_yields ho' hn
    · rw [if_neg hlt]
      refine .read (key_returns ho) ?_
      rw [if_pos hgt]
      obtain ⟨n', hn', hn⟩ := bind_eq_ok.mp hn
      refine .read (right_returns ho) (.bind_right ho (ihr hr hd.2 hn') ?_)
      rintro h' r' ho' rfl
      exact rebalance_yields ho' hn
    · rw [if_neg hlt]
      refine .read (key_returns ho) ?_
      rw [if_neg hgt]
      cases hn
      obtain ⟨h', hret, hrep⟩ := assign_data ho fun d : Fields => { d with value := newValue }
      exact ⟨_, h', _, hret.bind (.pure ..), hrep, rfl, rfl⟩

end Insertion

/-! ### Search and deletion -/

section Search

variable {h : Heap Fields} {t : Linked Fields} {searchKey : Uint32} {depth : ℕ}

def entryOf : Linked Fields → Option Entry
  | .nil => none
  | .node _ d _ _ => some ⟨d.key, d.value⟩

theorem getNode_returns (ho : Owned h t) (hd : t.depth < depth) :
    ∃ t', Owned h t' ∧ Returns (getNode searchKey depth t.ptr) h t'.ptr h ∧
      entryOf t' = AVLTree.getNode searchKey (erase t) := by
  induction t generalizing depth with
  | nil =>
    obtain ⟨depth, rfl⟩ := Nat.exists_eq_succ_of_ne_zero (Nat.ne_of_gt hd)
    exact ⟨.nil, ho, .pure .., rfl⟩
  | node a d l r ihl ihr =>
    obtain ⟨depth, rfl⟩ := Nat.exists_eq_succ_of_ne_zero (Nat.ne_of_gt (Nat.zero_lt_of_lt hd))
    rw [Linked.depth, Nat.succ_lt_succ_iff, max_lt_iff] at hd
    obtain ⟨-, -, -, -, -, hl, hr⟩ := owned_node.mp ho
    simp only [erase, AVLTree.getNode]
    split_ifs with hlt hgt
    · obtain ⟨t', ho', hret, he⟩ := ihl hl hd.1
      refine ⟨t', ho', (key_returns ho).bind ?_, he⟩
      rw [if_pos hlt]
      exact (left_returns ho).bind hret
    · obtain ⟨t', ho', hret, he⟩ := ihr hr hd.2
      refine ⟨t', ho', (key_returns ho).bind ?_, he⟩
      rw [if_neg hlt]
      refine (key_returns ho).bind ?_
      rw [if_pos hgt]
      exact (right_returns ho).bind hret
    · refine ⟨.node a d l r, ho, (key_returns ho).bind ?_, rfl⟩
      rw [if_neg hlt]
      refine (key_returns ho).bind ?_
      rw [if_neg hgt]
      exact .pure ..

theorem get_returns (ho : Owned h t) (hd : t.depth < depth) (searchKey : Uint32) :
    Returns (get t.ptr searchKey depth) h (AVLTree.get (erase t) searchKey) h := by
  obtain ⟨t', ho', hret, he⟩ := @getNode_returns _ _ searchKey _ ho hd
  refine hret.bind ?_
  rw [AVLTree.get, ← he]
  cases t' with
  | nil => exact .pure ..
  | node a d l r => exact value_returns ho'

/-- Every node is deleted once, after its children. -/
theorem clearRecursive_erases (ho : Owned h t) (hd : t.depth < depth) :
    ∃ h', Returns (clearRecursive depth t.ptr) h () h' ∧ Erases h t h' := by
  induction t generalizing depth h with
  | nil =>
    obtain ⟨depth, rfl⟩ := Nat.exists_eq_succ_of_ne_zero (Nat.ne_of_gt hd)
    exact ⟨h, .pure .., .nil h⟩
  | node a d l r ihl ihr =>
    obtain ⟨depth, rfl⟩ := Nat.exists_eq_succ_of_ne_zero (Nat.ne_of_gt (Nat.zero_lt_of_lt hd))
    rw [Linked.depth, Nat.succ_lt_succ_iff, max_lt_iff] at hd
    obtain ⟨hc, -, hal, -, hdisj, hl, hr⟩ := owned_node.mp ho
    obtain ⟨h₁, hret₁, he₁⟩ := ihl hl hd.1
    obtain ⟨h₂, hret₂, he₂⟩ := ihr (he₁.keeps hr hdisj) hd.2
    -- the node is there until its children are gone
    have hright : Returns (right (some a)) h₁ r.ptr h₁ :=
      (deref_returns ((he₁.frame a hal).trans hc)).bind (.pure ..)
    obtain ⟨hfree, he⟩ := Erases.node ho he₁ he₂
    exact ⟨_, (left_returns ho).bind (hret₁.bind (hright.bind (hret₂.bind hfree))), he⟩

end Search

end AVLTree.Pointers

end MiniKvs
