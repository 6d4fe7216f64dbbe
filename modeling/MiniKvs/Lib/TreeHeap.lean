import Mathlib.Data.List.Basic
import Mathlib.Tactic

/-! Binary trees whose nodes live in memory. Code reads and assigns fields through
pointers, allocates and deletes; each access fails on a null pointer or a deleted
object. A tree with its addresses says what a pointer leads to, and an operation is
described by the tree that it puts in the place of another one. -/

namespace MiniKvs.Lib.TreeHeap

variable {α β γ : Type}

/-- What stops code that uses memory. -/
inductive Fault
  | nullDereference
  | deletedObject
  | noReturn
  deriving DecidableEq

structure Cell (α : Type) where
  data : α
  left : Option ℕ
  right : Option ℕ
  deriving DecidableEq

/-- The live cells by address. An address is not used again. -/
structure Heap (α : Type) where
  cell : ℕ → Option (Cell α)
  next : ℕ

def Heap.empty : Heap α := ⟨fun _ => none, 0⟩

abbrev Prog (α β : Type) := StateT (Heap α) (Except Fault) β

section Access

/-- The cell at an address. -/
def deref (p : Option ℕ) : Prog α (Cell α) := fun h =>
  match p with
  | none => .error .nullDereference
  | some a =>
    match h.cell a with
    | none => .error .deletedObject
    | some c => .ok (c, h)

/-- Assign to fields of the cell at an address. -/
def assign (p : Option ℕ) (f : Cell α → Cell α) : Prog α Unit := fun h =>
  match p with
  | none => .error .nullDereference
  | some a =>
    match h.cell a with
    | none => .error .deletedObject
    | some c => .ok ((), { h with cell := Function.update h.cell a (some (f c)) })

/-- `new` -/
def alloc (data : α) : Prog α (Option ℕ) := fun h =>
  .ok (some h.next, ⟨Function.update h.cell h.next (some ⟨data, none, none⟩), h.next + 1⟩)

/-- `delete`, of an object that is there. -/
def free (p : Option ℕ) : Prog α Unit := fun h =>
  match p with
  | none => .error .nullDereference
  | some a =>
    match h.cell a with
    | none => .error .deletedObject
    | some _ => .ok ((), { h with cell := Function.update h.cell a none })

/-- Recursion that has not ended. -/
def diverge : Prog α β := fun _ => .error .noReturn

end Access

/-! ### Evaluation -/

/-- From memory `h` the code returns `b` and leaves memory `h'`. -/
def Returns (x : Prog α β) (h : Heap α) (b : β) (h' : Heap α) : Prop := x h = .ok (b, h')

theorem Returns.pure (b : β) (h : Heap α) : Returns (Pure.pure b : Prog α β) h b h := rfl

theorem Returns.bind {x : Prog α β} {f : β → Prog α γ} {h h₁ h' : Heap α} {b : β} {c : γ}
    (hx : Returns x h b h₁) (hf : Returns (f b) h₁ c h') : Returns (x >>= f) h c h' := by
  show (x h >>= fun r => f r.1 r.2) = _
  rw [show x h = .ok (b, h₁) from hx]
  exact hf

section Rules

variable {h : Heap α} {a : ℕ} {c : Cell α}

theorem deref_returns (hc : h.cell a = some c) : Returns (deref (some a)) h c h := by
  unfold Returns deref
  simp only [hc]

theorem assign_returns (hc : h.cell a = some c) (f : Cell α → Cell α) :
    Returns (assign (some a) f) h ()
      { h with cell := Function.update h.cell a (some (f c)) } := by
  unfold Returns assign
  simp only [hc]

theorem free_returns (hc : h.cell a = some c) :
    Returns (free (some a)) h () { h with cell := Function.update h.cell a none } := by
  unfold Returns free
  simp only [hc]

end Rules

/-! ### Trees in memory -/

/-- A tree with the addresses of its nodes. -/
inductive Linked (α : Type)
  | nil
  | node (addr : ℕ) (data : α) (left right : Linked α)

namespace Linked

def ptr : Linked α → Option ℕ
  | .nil => none
  | .node a _ _ _ => some a

def addrs : Linked α → List ℕ
  | .nil => []
  | .node a _ l r => a :: (l.addrs ++ r.addrs)

def depth : Linked α → ℕ
  | .nil => 0
  | .node _ _ l r => max l.depth r.depth + 1

@[simp] theorem ptr_node (a : ℕ) (d : α) (l r : Linked α) :
    (Linked.node a d l r).ptr = some a := rfl

@[simp] theorem ptr_nil : (Linked.nil : Linked α).ptr = none := rfl

theorem mem_addrs_node {a i : ℕ} {d : α} {l r : Linked α} :
    i ∈ (Linked.node a d l r).addrs ↔ i = a ∨ i ∈ l.addrs ∨ i ∈ r.addrs := by
  rw [addrs, List.mem_cons, List.mem_append]

end Linked

/-- The cells at the addresses of the tree are its nodes. -/
def Stored (h : Heap α) : Linked α → Prop
  | .nil => True
  | .node a d l r => h.cell a = some ⟨d, l.ptr, r.ptr⟩ ∧ Stored h l ∧ Stored h r

theorem Stored.congr {h h' : Heap α} {t : Linked α} (hs : Stored h t)
    (hcell : ∀ i ∈ t.addrs, h'.cell i = h.cell i) : Stored h' t := by
  induction t with
  | nil => trivial
  | node a d l r ihl ihr =>
    refine ⟨?_, ihl hs.2.1 fun i hi => ?_, ihr hs.2.2 fun i hi => ?_⟩
    · rw [hcell a (Linked.mem_addrs_node.mpr (.inl rfl))]
      exact hs.1
    · exact hcell i (Linked.mem_addrs_node.mpr (.inr (.inl hi)))
    · exact hcell i (Linked.mem_addrs_node.mpr (.inr (.inr hi)))

theorem Stored.isSome {h : Heap α} {t : Linked α} (hs : Stored h t) {i : ℕ} (hi : i ∈ t.addrs) :
    (h.cell i).isSome := by
  induction t with
  | nil => cases hi
  | node a d l r ihl ihr =>
    rcases Linked.mem_addrs_node.mp hi with rfl | hi | hi
    · rw [hs.1]
      rfl
    · exact ihl hs.2.1 hi
    · exact ihr hs.2.2 hi

/-- A tree in memory, each node at an address of its own. -/
structure Owned (h : Heap α) (t : Linked α) : Prop where
  stored : Stored h t
  nodup : t.addrs.Nodup
  lt : ∀ i ∈ t.addrs, i < h.next

section Node

variable {h h' : Heap α} {a : ℕ} {d : α} {l l' r r' t t' t'' : Linked α}

theorem Owned.nil (h : Heap α) : Owned h .nil := ⟨trivial, List.nodup_nil, fun i hi => by cases hi⟩

theorem owned_node : Owned h (.node a d l r) ↔
    h.cell a = some ⟨d, l.ptr, r.ptr⟩ ∧ a < h.next ∧ a ∉ l.addrs ∧ a ∉ r.addrs ∧
      (∀ i ∈ l.addrs, i ∉ r.addrs) ∧ Owned h l ∧ Owned h r := by
  constructor
  · rintro ⟨⟨hc, hl, hr⟩, hn, hlt⟩
    rw [Linked.addrs, List.nodup_cons, List.mem_append, not_or, List.nodup_append] at hn
    obtain ⟨⟨hal, har⟩, hnl, hnr, hd⟩ := hn
    refine ⟨hc, hlt a (Linked.mem_addrs_node.mpr (.inl rfl)), hal, har,
      fun i hi hi' => hd i hi i hi' rfl, ⟨hl, hnl, fun i hi => ?_⟩, hr, hnr, fun i hi => ?_⟩
    · exact hlt i (Linked.mem_addrs_node.mpr (.inr (.inl hi)))
    · exact hlt i (Linked.mem_addrs_node.mpr (.inr (.inr hi)))
  · rintro ⟨hc, ha, hal, har, hd, hl, hr⟩
    refine ⟨⟨hc, hl.stored, hr.stored⟩, ?_, fun i hi => ?_⟩
    · rw [Linked.addrs, List.nodup_cons, List.mem_append, not_or, List.nodup_append]
      exact ⟨⟨hal, har⟩, hl.nodup, hr.nodup, fun i hi j hj he => hd i hi (he ▸ hj)⟩
    · rcases Linked.mem_addrs_node.mp hi with rfl | hi | hi
      · exact ha
      · exact hl.lt i hi
      · exact hr.lt i hi

theorem Owned.congr (ho : Owned h t) (hcell : ∀ i ∈ t.addrs, h'.cell i = h.cell i)
    (hle : h.next ≤ h'.next) : Owned h' t :=
  ⟨ho.stored.congr hcell, ho.nodup, fun i hi => (ho.lt i hi).trans_le hle⟩

/-! ### Putting one tree in the place of another -/

/-- Memory `h'` has the tree `t'` where `h` has `t`: its nodes are those of `t` and the new
ones, and the rest of the memory is as it was. -/
structure Replaces (h : Heap α) (t : Linked α) (h' : Heap α) (t' : Linked α) : Prop where
  owned : Owned h' t'
  le : h.next ≤ h'.next
  mem : ∀ i, i ∈ t'.addrs ↔ i ∈ t.addrs ∨ h.next ≤ i ∧ i < h'.next
  frame : ∀ i ∉ t'.addrs, h'.cell i = h.cell i

theorem Replaces.refl (ho : Owned h t) : Replaces h t h t :=
  ⟨ho, le_rfl, fun _ => ⟨.inl, fun hi => hi.resolve_right (by omega)⟩, fun _ _ => rfl⟩

theorem Replaces.trans {h'' : Heap α} (h₁ : Replaces h t h' t') (h₂ : Replaces h' t' h'' t'') :
    Replaces h t h'' t'' := by
  refine ⟨h₂.owned, h₁.le.trans h₂.le, fun i => ?_, fun i hi => ?_⟩
  · have hle := h₁.le
    have hle' := h₂.le
    rw [h₂.mem, h₁.mem, or_assoc]
    constructor
    · rintro (hi | hi | hi)
      · exact .inl hi
      · exact .inr (by omega)
      · exact .inr (by omega)
    · rintro (hi | hi)
      · exact .inl hi
      · exact .inr (by omega)
  · rw [h₂.frame i hi]
    exact h₁.frame i fun hi' => hi ((h₂.mem i).mpr (.inl hi'))

/-- What a replaced tree has besides its old nodes is outside of any other tree. -/
theorem Replaces.disjoint (hr : Replaces h t h' t') (ho : Owned h r)
    (hd : ∀ i ∈ t.addrs, i ∉ r.addrs) {i : ℕ} (hi : i ∈ t'.addrs) : i ∉ r.addrs := by
  rcases (hr.mem i).mp hi with hi | hi
  · exact hd i hi
  · exact fun hi' => absurd (ho.lt i hi') (by omega)

theorem Replaces.keeps (hr : Replaces h t h' t') (ho : Owned h r)
    (hd : ∀ i ∈ t.addrs, i ∉ r.addrs) : Owned h' r :=
  ho.congr (fun i hi => hr.frame i fun hi' => hr.disjoint ho hd hi' hi) hr.le

/-- Both subtrees are replaced, one after the other, and the node is assigned. -/
theorem Replaces.node {h₁ h₂ : Heap α} (ho : Owned h (.node a d l r)) (hl : Replaces h l h₁ l')
    (hr : Replaces h₁ r h₂ r') (d' : α) : Replaces h (.node a d l r)
      { h₂ with cell := Function.update h₂.cell a (some ⟨d', l'.ptr, r'.ptr⟩) }
      (.node a d' l' r') := by
  obtain ⟨-, ha, hal, har, hd, -, hor⟩ := owned_node.mp ho
  have hal' : a ∉ l'.addrs := fun hi => by
    rcases (hl.mem a).mp hi with hi | hi
    · exact hal hi
    · omega
  have har' : a ∉ r'.addrs := fun hi => by
    have hle := hl.le
    rcases (hr.mem a).mp hi with hi | hi
    · exact har hi
    · omega
  -- the new nodes of the right subtree come after those of the left
  have hd₁ : ∀ i ∈ r.addrs, i ∉ l'.addrs := fun i hi hi' => hl.disjoint hor hd hi' hi
  refine ⟨owned_node.mpr ⟨Function.update_self .., ha.trans_le (hl.le.trans hr.le), hal', har',
    fun i hi hi' => hr.disjoint hl.owned hd₁ hi' hi,
    (hr.keeps hl.owned hd₁).congr (fun i hi => Function.update_of_ne ?_ ..) le_rfl,
    hr.owned.congr (fun i hi => Function.update_of_ne ?_ ..) le_rfl⟩, hl.le.trans hr.le,
    fun i => ?_, fun i hi => ?_⟩
  · rintro rfl
    exact hal' hi
  · rintro rfl
    exact har' hi
  · have hle := hl.le
    have hle' := hr.le
    rw [Linked.mem_addrs_node, Linked.mem_addrs_node, hr.mem, hl.mem]
    constructor
    · rintro (hi | (hi | hi) | hi | hi)
      · exact .inl (.inl hi)
      · exact .inl (.inr (.inl hi))
      · exact .inr (by simp only; omega)
      · exact .inl (.inr (.inr hi))
      · exact .inr (by simp only; omega)
    · rintro ((hi | hi | hi) | hi)
      · exact .inl hi
      · exact .inr (.inl (.inl hi))
      · exact .inr (.inr (.inl hi))
      · simp only at hi
        rcases Nat.lt_or_ge i h₁.next with hlt | hge
        · exact .inr (.inl (.inr (by omega)))
        · exact .inr (.inr (.inr (by omega)))
  · rw [Linked.mem_addrs_node, not_or, not_or] at hi
    exact (Function.update_of_ne hi.1 ..).trans
      ((hr.frame i hi.2.2).trans (hl.frame i hi.2.1))

/-- The cell of a node stays when a subtree is replaced. -/
theorem Replaces.cell_left (ho : Owned h (.node a d l r)) (hl : Replaces h l h' l') :
    h'.cell a = some ⟨d, l.ptr, r.ptr⟩ ∧ Owned h' r := by
  obtain ⟨hc, ha, hal, -, hd, -, hor⟩ := owned_node.mp ho
  refine ⟨(hl.frame a fun hi => ?_).trans hc, hl.keeps hor hd⟩
  rcases (hl.mem a).mp hi with hi | hi
  · exact hal hi
  · omega

theorem Replaces.cell_right (ho : Owned h (.node a d l r)) (hr : Replaces h r h' r') :
    h'.cell a = some ⟨d, l.ptr, r.ptr⟩ ∧ Owned h' l := by
  obtain ⟨hc, ha, -, har, hd, hol, -⟩ := owned_node.mp ho
  refine ⟨(hr.frame a fun hi => ?_).trans hc, hr.keeps hol fun i hi hi' => hd i hi' hi⟩
  rcases (hr.mem a).mp hi with hi | hi
  · exact har hi
  · omega

/-- Every cell in memory is a node of the tree. -/
def Whole (h : Heap α) (t : Linked α) : Prop := ∀ i, (h.cell i).isSome ↔ i ∈ t.addrs

theorem Replaces.whole (hr : Replaces h t h' t') (hw : Whole h t) : Whole h' t' := by
  intro i
  refine ⟨fun hs => ?_, hr.owned.stored.isSome⟩
  by_contra hi
  rw [hr.frame i hi, hw i] at hs
  exact hi ((hr.mem i).mpr (.inl hs))

end Node

section Assign

variable {h h' : Heap α} {a : ℕ} {d : α} {l l' r r' t : Linked α}

theorem deref_node (ho : Owned h (.node a d l r)) :
    Returns (deref (some a)) h ⟨d, l.ptr, r.ptr⟩ h := deref_returns ho.stored.1

/-- Changing the data of a node. -/
theorem assign_data (ho : Owned h (.node a d l r)) (f : α → α) :
    ∃ h', Returns (assign (some a) fun c => { c with data := f c.data }) h () h' ∧
      Replaces h (.node a d l r) h' (.node a (f d) l r) := by
  obtain ⟨hc, -, -, -, -, hl, hr⟩ := owned_node.mp ho
  exact ⟨_, assign_returns hc _, .node ho (.refl hl) (.refl hr) (f d)⟩

/-- A child changes at its address. -/
theorem Replaces.right_child (ho : Owned h (.node a d l r)) (hr : Replaces h r h' r')
    (hp : r'.ptr = r.ptr) : Replaces h (.node a d l r) h' (.node a d l r') := by
  obtain ⟨hc, -⟩ := hr.cell_right ho
  obtain ⟨-, -, -, -, -, hl, -⟩ := owned_node.mp ho
  have hn := Replaces.node ho (.refl hl) hr d
  rwa [hp, ← hc, Function.update_eq_self] at hn

theorem Replaces.left_child (ho : Owned h (.node a d l r)) (hl : Replaces h l h' l')
    (hp : l'.ptr = l.ptr) : Replaces h (.node a d l r) h' (.node a d l' r) := by
  obtain ⟨hc, hor⟩ := hl.cell_left ho
  have hn := Replaces.node ho hl (.refl hor) d
  rwa [hp, ← hc, Function.update_eq_self] at hn

/-- A new object in the place of no tree. -/
theorem alloc_nil (h : Heap α) (d : α) : ∃ h', Returns (alloc d) h (some h.next) h' ∧
    Replaces h .nil h' (.node h.next d .nil .nil) := by
  refine ⟨_, rfl, ⟨?_, Nat.le_succ _, fun i => ?_, fun i hi => ?_⟩⟩
  · exact owned_node.mpr ⟨Function.update_self .., Nat.lt_succ_self _, List.not_mem_nil,
      List.not_mem_nil, fun i hi => (by cases hi), .nil _, .nil _⟩
  · simp [Linked.addrs]
    omega
  · exact Function.update_of_ne (fun he => hi (Linked.mem_addrs_node.mpr (.inl he))) ..

end Assign

/-! ### Rotating and deleting -/

section Rotate

variable {h : Heap α} {a b : ℕ} {d e : α} {l r s : Linked α}

/-- The left child comes up, and its right child goes over to the node. -/
theorem relink_right (ho : Owned h (.node a d (.node b e l r) s)) :
    ∃ h₁ h', Returns (assign (some b) fun c => { c with right := some a }) h () h₁ ∧
      Returns (assign (some a) fun c => { c with left := r.ptr }) h₁ () h' ∧
      Replaces h (.node a d (.node b e l r) s) h' (.node b e l (.node a d r s)) := by
  obtain ⟨hc, ha, hal, has, hd, hl, hs⟩ := owned_node.mp ho
  obtain ⟨hc', hb, hbl, hbr, hd', hl', hr⟩ := owned_node.mp hl
  rw [Linked.mem_addrs_node, not_or, not_or] at hal
  have hbs : b ∉ s.addrs := hd b (Linked.mem_addrs_node.mpr (.inl rfl))
  have hls : ∀ i ∈ l.addrs, i ∉ s.addrs := fun i hi =>
    hd i (Linked.mem_addrs_node.mpr (.inr (.inl hi)))
  have hrs : ∀ i ∈ r.addrs, i ∉ s.addrs := fun i hi =>
    hd i (Linked.mem_addrs_node.mpr (.inr (.inr hi)))
  have hother : ∀ i, i ≠ a → i ≠ b → Function.update (Function.update h.cell b
      (some ⟨e, l.ptr, some a⟩)) a (some ⟨d, r.ptr, s.ptr⟩) i = h.cell i := fun i hia hib => by
    rw [Function.update_of_ne hia, Function.update_of_ne hib]
  have hkeep : ∀ {t : Linked α}, Owned h t → a ∉ t.addrs → b ∉ t.addrs →
      Owned { h with cell := Function.update (Function.update h.cell b
        (some ⟨e, l.ptr, some a⟩)) a (some ⟨d, r.ptr, s.ptr⟩) } t := fun ht hat hbt =>
    ht.congr (fun i hi => hother i (fun he => hat (he ▸ hi)) fun he => hbt (he ▸ hi)) le_rfl
  refine ⟨_, _, assign_returns hc' _,
    assign_returns ((Function.update_of_ne hal.1 ..).trans hc) _, ?_, le_rfl, fun i => ?_,
    fun i hi => ?_⟩
  · refine owned_node.mpr ⟨?_, hb, hbl, ?_, fun i hi => ?_, hkeep hl' hal.2.1 hbl,
      owned_node.mpr ⟨Function.update_self .., ha, hal.2.2, has, hrs, hkeep hr hal.2.2 hbr,
        hkeep hs has hbs⟩⟩
    · exact (Function.update_of_ne (Ne.symm hal.1) ..).trans (Function.update_self ..)
    · rw [Linked.mem_addrs_node, not_or, not_or]
      exact ⟨Ne.symm hal.1, hbr, hbs⟩
    · rw [Linked.mem_addrs_node, not_or, not_or]
      exact ⟨fun he => hal.2.1 (he ▸ hi), hd' i hi, hls i hi⟩
  · simp only [Linked.mem_addrs_node]
    constructor
    · tauto
    · rintro (hi | hi)
      · tauto
      · omega
  · simp only [Linked.mem_addrs_node, not_or] at hi
    exact hother i hi.2.2.1 hi.1

/-- The right child comes up, and its left child goes over to the node. -/
theorem relink_left (ho : Owned h (.node a d s (.node b e l r))) :
    ∃ h₁ h', Returns (assign (some b) fun c => { c with left := some a }) h () h₁ ∧
      Returns (assign (some a) fun c => { c with right := l.ptr }) h₁ () h' ∧
      Replaces h (.node a d s (.node b e l r)) h' (.node b e (.node a d s l) r) := by
  obtain ⟨hc, ha, has, har, hd, hs, hr⟩ := owned_node.mp ho
  obtain ⟨hc', hb, hbl, hbr, hd', hl, hr'⟩ := owned_node.mp hr
  rw [Linked.mem_addrs_node, not_or, not_or] at har
  have hbs : b ∉ s.addrs := fun hi => hd b hi (Linked.mem_addrs_node.mpr (.inl rfl))
  have hsl : ∀ i ∈ s.addrs, i ∉ l.addrs := fun i hi hi' =>
    hd i hi (Linked.mem_addrs_node.mpr (.inr (.inl hi')))
  have hsr : ∀ i ∈ s.addrs, i ∉ r.addrs := fun i hi hi' =>
    hd i hi (Linked.mem_addrs_node.mpr (.inr (.inr hi')))
  have hother : ∀ i, i ≠ a → i ≠ b → Function.update (Function.update h.cell b
      (some ⟨e, some a, r.ptr⟩)) a (some ⟨d, s.ptr, l.ptr⟩) i = h.cell i := fun i hia hib => by
    rw [Function.update_of_ne hia, Function.update_of_ne hib]
  have hkeep : ∀ {t : Linked α}, Owned h t → a ∉ t.addrs → b ∉ t.addrs →
      Owned { h with cell := Function.update (Function.update h.cell b
        (some ⟨e, some a, r.ptr⟩)) a (some ⟨d, s.ptr, l.ptr⟩) } t := fun ht hat hbt =>
    ht.congr (fun i hi => hother i (fun he => hat (he ▸ hi)) fun he => hbt (he ▸ hi)) le_rfl
  refine ⟨_, _, assign_returns hc' _,
    assign_returns ((Function.update_of_ne har.1 ..).trans hc) _, ?_, le_rfl, fun i => ?_,
    fun i hi => ?_⟩
  · refine owned_node.mpr ⟨?_, hb, ?_, hbr, fun i hi => ?_,
      owned_node.mpr ⟨Function.update_self .., ha, has, har.2.1, hsl, hkeep hs has hbs,
        hkeep hl har.2.1 hbl⟩, hkeep hr' har.2.2 hbr⟩
    · exact (Function.update_of_ne (Ne.symm har.1) ..).trans (Function.update_self ..)
    · rw [Linked.mem_addrs_node, not_or, not_or]
      exact ⟨Ne.symm har.1, hbs, hbl⟩
    · rcases Linked.mem_addrs_node.mp hi with rfl | hi | hi
      · exact har.2.2
      · exact hsr i hi
      · exact hd' i hi
  · simp only [Linked.mem_addrs_node]
    constructor
    · tauto
    · rintro (hi | hi)
      · tauto
      · omega
  · simp only [Linked.mem_addrs_node, not_or] at hi
    exact hother i hi.2.1.1 hi.1

end Rotate

/-! ### What code does to a tree -/

/-- From memory `h` with the tree `t` the code returns, and has put a tree in the place of
`t`; `Q` says which one, and with which result. -/
def Yields (x : Prog α β) (h : Heap α) (t : Linked α) (Q : β → Linked α → Prop) : Prop :=
  ∃ b h' t', Returns x h b h' ∧ Replaces h t h' t' ∧ Q b t'

namespace Yields

variable {x : Prog α β} {f : β → Prog α γ} {h : Heap α} {t l r : Linked α} {a : ℕ} {d : α}
  {Q : β → Linked α → Prop} {R : γ → Linked α → Prop}

theorem ret {b : β} (ho : Owned h t) (hq : Q b t) : Yields (pure b) h t Q :=
  ⟨b, h, t, .pure b h, .refl ho, hq⟩

theorem bind (hx : Yields x h t Q)
    (hf : ∀ b h' t', Owned h' t' → Q b t' → Yields (f b) h' t' R) : Yields (x >>= f) h t R := by
  obtain ⟨b, h', t', hr, hrep, hq⟩ := hx
  obtain ⟨c, h'', t'', hr', hrep', hR⟩ := hf b h' t' hrep.owned hq
  exact ⟨c, h'', t'', hr.bind hr', hrep.trans hrep', hR⟩

/-- Code that only reads. -/
theorem read {b : β} (hx : Returns x h b h) (hf : Yields (f b) h t R) : Yields (x >>= f) h t R := by
  obtain ⟨c, h', t', hr, hrep, hR⟩ := hf
  exact ⟨c, h', t', hx.bind hr, hrep, hR⟩

/-- What code does to a child at its address, it does to the node. -/
theorem left (ho : Owned h (.node a d l r)) (hx : Yields x h l Q)
    (hp : ∀ b l', Q b l' → l'.ptr = l.ptr) : Yields x h (.node a d l r)
      fun b t => ∃ l', t = .node a d l' r ∧ Q b l' := by
  obtain ⟨b, h', l', hr, hrep, hQ⟩ := hx
  exact ⟨b, h', _, hr, hrep.left_child ho (hp b l' hQ), l', rfl, hQ⟩

theorem right (ho : Owned h (.node a d l r)) (hx : Yields x h r Q)
    (hp : ∀ b r', Q b r' → r'.ptr = r.ptr) : Yields x h (.node a d l r)
      fun b t => ∃ r', t = .node a d l r' ∧ Q b r' := by
  obtain ⟨b, h', r', hr, hrep, hQ⟩ := hx
  exact ⟨b, h', _, hr, hrep.right_child ho (hp b r' hQ), r', rfl, hQ⟩

/-- The result is assigned to the child it was computed from. -/
theorem bind_left {x : Prog α (Option ℕ)} {k : Prog α γ} {P : Linked α → Prop}
    (ho : Owned h (.node a d l r)) (hx : Yields x h l fun p l' => p = l'.ptr ∧ P l')
    (hk : ∀ h' l', Owned h' (.node a d l' r) → P l' → Yields k h' (.node a d l' r) R) :
    Yields (x >>= fun p => assign (some a) (fun c => { c with left := p }) >>= fun _ => k) h
      (.node a d l r) R := by
  obtain ⟨p, h₁, l', hr, hrep, rfl, hP⟩ := hx
  obtain ⟨hc, hor⟩ := hrep.cell_left ho
  have hrep' := Replaces.node ho hrep (.refl hor) d
  obtain ⟨c, h', t', hr', hrep'', hR⟩ := hk _ l' hrep'.owned hP
  exact ⟨c, h', t', hr.bind ((assign_returns hc _).bind hr'), hrep'.trans hrep'', hR⟩

theorem bind_right {x : Prog α (Option ℕ)} {k : Prog α γ} {P : Linked α → Prop}
    (ho : Owned h (.node a d l r)) (hx : Yields x h r fun p r' => p = r'.ptr ∧ P r')
    (hk : ∀ h' r', Owned h' (.node a d l r') → P r' → Yields k h' (.node a d l r') R) :
    Yields (x >>= fun p => assign (some a) (fun c => { c with right := p }) >>= fun _ => k) h
      (.node a d l r) R := by
  obtain ⟨p, h₁, r', hr, hrep, rfl, hP⟩ := hx
  obtain ⟨hc, hol⟩ := hrep.cell_right ho
  obtain ⟨-, -, -, -, -, hl, -⟩ := owned_node.mp ho
  have hrep' := Replaces.node ho (.refl hl) hrep d
  obtain ⟨c, h', t', hr', hrep'', hR⟩ := hk _ r' hrep'.owned hP
  exact ⟨c, h', t', hr.bind ((assign_returns hc _).bind hr'), hrep'.trans hrep'', hR⟩

/-- Two assignments that bring the left child up. -/
theorem relink_right {k : Prog α γ} {b : ℕ} {e : α} {s : Linked α}
    (ho : Owned h (.node a d (.node b e l r) s))
    (hk : ∀ h', Owned h' (.node b e l (.node a d r s)) →
      Yields k h' (.node b e l (.node a d r s)) R) :
    Yields (assign (some b) (fun c => { c with right := some a }) >>= fun _ =>
      assign (some a) (fun c => { c with left := r.ptr }) >>= fun _ => k) h
      (.node a d (.node b e l r) s) R := by
  obtain ⟨h₁, h₂, hr₁, hr₂, hrep⟩ := TreeHeap.relink_right ho
  obtain ⟨c, h', t', hr', hrep', hR⟩ := hk h₂ hrep.owned
  exact ⟨c, h', t', hr₁.bind (hr₂.bind hr'), hrep.trans hrep', hR⟩

theorem relink_left {k : Prog α γ} {b : ℕ} {e : α} {s : Linked α}
    (ho : Owned h (.node a d s (.node b e l r)))
    (hk : ∀ h', Owned h' (.node b e (.node a d s l) r) →
      Yields k h' (.node b e (.node a d s l) r) R) :
    Yields (assign (some b) (fun c => { c with left := some a }) >>= fun _ =>
      assign (some a) (fun c => { c with right := l.ptr }) >>= fun _ => k) h
      (.node a d s (.node b e l r)) R := by
  obtain ⟨h₁, h₂, hr₁, hr₂, hrep⟩ := TreeHeap.relink_left ho
  obtain ⟨c, h', t', hr', hrep', hR⟩ := hk h₂ hrep.owned
  exact ⟨c, h', t', hr₁.bind (hr₂.bind hr'), hrep.trans hrep', hR⟩

end Yields

/-- The cells of the tree are gone, the others are as they were. -/
structure Erases (h : Heap α) (t : Linked α) (h' : Heap α) : Prop where
  gone : ∀ i ∈ t.addrs, h'.cell i = none
  frame : ∀ i ∉ t.addrs, h'.cell i = h.cell i
  next : h'.next = h.next

section Erase

variable {h h' : Heap α} {a : ℕ} {d : α} {l r t : Linked α}

theorem Erases.nil (h : Heap α) : Erases h .nil h :=
  ⟨fun i hi => (by cases hi), fun _ _ => rfl, rfl⟩

theorem Erases.keeps (he : Erases h l h') (ho : Owned h r) (hd : ∀ i ∈ l.addrs, i ∉ r.addrs) :
    Owned h' r :=
  ho.congr (fun i hi => he.frame i fun hi' => hd i hi' hi) he.next.ge

/-- The children are deleted first, then the node. -/
theorem Erases.node {h₁ h₂ : Heap α} (ho : Owned h (.node a d l r)) (hl : Erases h l h₁)
    (hr : Erases h₁ r h₂) : Returns (free (some a)) h₂ ()
      { h₂ with cell := Function.update h₂.cell a none } ∧
    Erases h (.node a d l r) { h₂ with cell := Function.update h₂.cell a none } := by
  obtain ⟨hc, -, hal, har, -, -, -⟩ := owned_node.mp ho
  have hc₂ : h₂.cell a = some ⟨d, l.ptr, r.ptr⟩ := by
    rw [hr.frame a har, hl.frame a hal, hc]
  refine ⟨free_returns hc₂, fun i hi => ?_, fun i hi => ?_, hr.next.trans hl.next⟩
  · by_cases hia : i = a
    · subst hia
      exact Function.update_self ..
    refine (Function.update_of_ne hia ..).trans ?_
    by_cases hir : i ∈ r.addrs
    · exact hr.gone i hir
    · rw [hr.frame i hir]
      exact hl.gone i (((Linked.mem_addrs_node.mp hi).resolve_left hia).resolve_right hir)
  · rw [Linked.mem_addrs_node, not_or, not_or] at hi
    exact (Function.update_of_ne hi.1 ..).trans
      ((hr.frame i hi.2.2).trans (hl.frame i hi.2.1))

/-- Nothing is left of a memory that held the tree alone. -/
theorem Erases.whole (he : Erases h t h') (hw : Whole h t) : Whole h' .nil := by
  intro i
  by_cases hi : i ∈ t.addrs
  · rw [he.gone i hi]
    simp [Linked.addrs]
  · rw [he.frame i hi, hw i]
    exact iff_of_false hi List.not_mem_nil

end Erase

end MiniKvs.Lib.TreeHeap
