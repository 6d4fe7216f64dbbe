import Mathlib.Data.List.Basic
import Mathlib.Tactic

/-! Doubly linked lists whose nodes live in a heap. A segment fixes both
pointers of every node it runs over; splicing, relinking one end and unlinking
a node are stated on segments, so a list operation is a sequence of them. -/

namespace MiniKvs.Lib.DList

variable {κ : Type*}

structure Node (κ : Type*) where
  prev : Option ℕ
  next : Option ℕ
  key : κ
  deriving DecidableEq

/-- Allocated nodes by address. -/
abbrev Heap (κ : Type*) := ℕ → Option (Node κ)

/-- The address a list starts at, `q` when it is empty. -/
def headPtr (xs : List (ℕ × κ)) (q : Option ℕ) : Option ℕ :=
  match xs with
  | [] => q
  | x :: _ => some x.1

/-- The address a list ends at, `p` when it is empty. -/
def lastPtr (p : Option ℕ) : List (ℕ × κ) → Option ℕ
  | [] => p
  | x :: xs => lastPtr (some x.1) xs

/-- The nodes `xs` are linked in this order: the first points back to `p`, the
last points on to `q`. -/
def Seg (h : Heap κ) : Option ℕ → List (ℕ × κ) → Option ℕ → Prop
  | _, [], _ => True
  | p, x :: xs, q => h x.1 = some ⟨p, headPtr xs q, x.2⟩ ∧ Seg h (some x.1) xs q

def setPrev (h : Heap κ) (a : ℕ) (p : Option ℕ) : Heap κ :=
  Function.update h a ((h a).map fun n => { n with prev := p })

def setNext (h : Heap κ) (a : ℕ) (q : Option ℕ) : Heap κ :=
  Function.update h a ((h a).map fun n => { n with next := q })

theorem setPrev_of_ne (h : Heap κ) {a b : ℕ} (p : Option ℕ) (hab : b ≠ a) :
    setPrev h a p b = h b := Function.update_of_ne hab ..

theorem setNext_of_ne (h : Heap κ) {a b : ℕ} (q : Option ℕ) (hab : b ≠ a) :
    setNext h a q b = h b := Function.update_of_ne hab ..

@[simp] theorem headPtr_nil (q : Option ℕ) : headPtr ([] : List (ℕ × κ)) q = q := rfl

@[simp] theorem headPtr_cons (x : ℕ × κ) (xs : List (ℕ × κ)) (q : Option ℕ) :
    headPtr (x :: xs) q = some x.1 := rfl

theorem headPtr_append (xs ys : List (ℕ × κ)) (q : Option ℕ) :
    headPtr (xs ++ ys) q = headPtr xs (headPtr ys q) := by cases xs <;> rfl

@[simp] theorem lastPtr_nil (p : Option ℕ) : lastPtr p ([] : List (ℕ × κ)) = p := rfl

@[simp] theorem lastPtr_cons (p : Option ℕ) (x : ℕ × κ) (xs : List (ℕ × κ)) :
    lastPtr p (x :: xs) = lastPtr (some x.1) xs := rfl

@[simp] theorem lastPtr_append (p : Option ℕ) (xs ys : List (ℕ × κ)) :
    lastPtr p (xs ++ ys) = lastPtr (lastPtr p xs) ys := by
  induction xs generalizing p with
  | nil => rfl
  | cons x xs ih => exact ih _

theorem lastPtr_ne_none (p : Option ℕ) {xs : List (ℕ × κ)} (h : xs ≠ []) :
    lastPtr p xs ≠ none := by
  obtain ⟨ys, y, rfl⟩ := List.eq_nil_or_concat' xs |>.resolve_left h
  simp

/-- Where a nonempty list ends does not depend on what stands before it. -/
theorem lastPtr_congr (p p' : Option ℕ) {xs : List (ℕ × κ)} (h : xs ≠ []) :
    lastPtr p xs = lastPtr p' xs := by
  obtain ⟨ys, y, rfl⟩ := List.eq_nil_or_concat' xs |>.resolve_left h
  simp

@[simp] theorem seg_nil (h : Heap κ) (p q : Option ℕ) : Seg h p [] q := trivial

@[simp] theorem seg_cons (h : Heap κ) (p q : Option ℕ) (x : ℕ × κ) (xs : List (ℕ × κ)) :
    Seg h p (x :: xs) q ↔ h x.1 = some ⟨p, headPtr xs q, x.2⟩ ∧ Seg h (some x.1) xs q := Iff.rfl

theorem seg_append (h : Heap κ) (p q : Option ℕ) (xs ys : List (ℕ × κ)) :
    Seg h p (xs ++ ys) q ↔ Seg h p xs (headPtr ys q) ∧ Seg h (lastPtr p xs) ys q := by
  induction xs generalizing p with
  | nil => simp
  | cons x xs ih =>
    rw [List.cons_append, seg_cons, seg_cons, ih, headPtr_append, lastPtr_cons, and_assoc]

/-- Writing outside a segment leaves it alone. -/
theorem seg_update {h : Heap κ} {a : ℕ} (n : Option (Node κ)) {p q : Option ℕ}
    {xs : List (ℕ × κ)} (ha : a ∉ xs.map Prod.fst) (hs : Seg h p xs q) :
    Seg (Function.update h a n) p xs q := by
  induction xs generalizing p with
  | nil => trivial
  | cons x xs ih =>
    simp only [List.map_cons, List.mem_cons, not_or] at ha
    exact ⟨by rw [Function.update_of_ne (Ne.symm ha.1)]; exact hs.1, ih ha.2 hs.2⟩

theorem seg_setPrev_frame {h : Heap κ} {a : ℕ} {p' p q : Option ℕ} {xs : List (ℕ × κ)}
    (ha : a ∉ xs.map Prod.fst) (hs : Seg h p xs q) : Seg (setPrev h a p') p xs q :=
  seg_update _ ha hs

theorem seg_setNext_frame {h : Heap κ} {a : ℕ} {q' p q : Option ℕ} {xs : List (ℕ × κ)}
    (ha : a ∉ xs.map Prod.fst) (hs : Seg h p xs q) : Seg (setNext h a q') p xs q :=
  seg_update _ ha hs

/-- Redirecting the first node's back pointer moves the segment's left end. -/
theorem seg_setPrev_head {h : Heap κ} {p p' q : Option ℕ} {x : ℕ × κ} {xs : List (ℕ × κ)}
    (hd : x.1 ∉ xs.map Prod.fst) (hs : Seg h p (x :: xs) q) :
    Seg (setPrev h x.1 p') p' (x :: xs) q := by
  refine ⟨?_, seg_setPrev_frame hd hs.2⟩
  simp [setPrev, hs.1]

/-- Redirecting the last node's forward pointer moves the segment's right end. -/
theorem seg_setNext_last {h : Heap κ} {p q q' : Option ℕ} {x : ℕ × κ} {xs : List (ℕ × κ)}
    (hd : x.1 ∉ xs.map Prod.fst) (hs : Seg h p (xs ++ [x]) q) :
    Seg (setNext h x.1 q') p (xs ++ [x]) q' := by
  rw [seg_append] at hs ⊢
  refine ⟨seg_setNext_frame hd hs.1, ?_, trivial⟩
  simp [setNext, hs.2.1]

/-- Every node of a segment is allocated and carries its key. -/
theorem seg_key {h : Heap κ} {p q : Option ℕ} {xs : List (ℕ × κ)} (hs : Seg h p xs q)
    {x : ℕ × κ} (hx : x ∈ xs) : ∃ n, h x.1 = some n ∧ n.key = x.2 := by
  induction xs generalizing p with
  | nil => simp at hx
  | cons y ys ih =>
    rcases List.mem_cons.mp hx with rfl | hx
    · exact ⟨_, hs.1, rfl⟩
    · exact ih hs.2 hx

/-! ### Unlinking and pushing -/

/-- Let the neighbours `p` and `q` of a node point at each other. -/
def bypass (h : Heap κ) (p q : Option ℕ) : Heap κ :=
  let h := match p with
    | none => h
    | some a => setNext h a q
  match q with
  | none => h
  | some b => setPrev h b p

/-- Unlinking a node of a list. The first node may be unlinked only if its back
pointer is null: `bypass` would otherwise write through it. -/
theorem seg_unlink {h : Heap κ} {p : Option ℕ} {xs ys : List (ℕ × κ)} {x : ℕ × κ}
    (hd : ((xs ++ x :: ys).map Prod.fst).Nodup) (hp : xs = [] → p = none)
    (hs : Seg h p (xs ++ x :: ys) none) :
    Seg (bypass h (lastPtr p xs) (headPtr ys none)) p (xs ++ ys) none := by
  obtain ⟨hxs, -, hys⟩ := (seg_append ..).mp hs
  rw [List.map_append, List.nodup_append] at hd
  obtain ⟨hdx, hdy, hne⟩ := hd
  rw [List.map_cons, List.nodup_cons] at hdy
  -- the left part first ends at `ys`, then the right part starts after `xs`
  have hleft : ∃ h', h' = (match lastPtr p xs with
      | none => h
      | some a => setNext h a (headPtr ys none)) ∧
      Seg h' p xs (headPtr ys none) ∧ Seg h' (some x.1) ys none := by
    rcases List.eq_nil_or_concat' xs with rfl | ⟨zs, z, rfl⟩
    · exact ⟨h, by simp [hp rfl], trivial, hys⟩
    · have hz : z.1 ∉ zs.map Prod.fst := by
        rw [List.map_append, List.nodup_append] at hdx
        exact fun hm => hdx.2.2 _ hm z.1 (by simp) rfl
      have hzy : z.1 ∉ ys.map Prod.fst := fun hm =>
        hne z.1 (by simp) z.1 (by simp only [List.map_cons, List.mem_cons]; exact .inr hm) rfl
      refine ⟨setNext h z.1 (headPtr ys none), by simp, ?_, seg_setNext_frame hzy hys⟩
      exact seg_setNext_last hz hxs
  obtain ⟨h', hh', hx', hy'⟩ := hleft
  unfold bypass
  rw [← hh', seg_append]
  cases ys with
  | nil => exact ⟨hx', trivial⟩
  | cons y ys =>
    have hyx : y.1 ∉ xs.map Prod.fst := fun hm => hne y.1 hm y.1 (by simp) rfl
    have hyy : y.1 ∉ ys.map Prod.fst := by simpa using (List.nodup_cons.mp hdy.2).1
    exact ⟨seg_setPrev_frame hyx hx', seg_setPrev_head hyy hy'⟩

/-- Hanging a node in front of a list. Its back pointer stays what it was. -/
theorem seg_push {h : Heap κ} {p₀ p q q₀ : Option ℕ} {x y : ℕ × κ} {ys : List (ℕ × κ)}
    (hd : ((x :: y :: ys).map Prod.fst).Nodup) (hx : h x.1 = some ⟨p₀, q₀, x.2⟩)
    (hs : Seg h p (y :: ys) q) :
    Seg (setNext (setPrev h y.1 (some x.1)) x.1 (some y.1)) p₀ (x :: y :: ys) q := by
  rw [List.map_cons, List.nodup_cons] at hd
  have hyy : y.1 ∉ ys.map Prod.fst := (List.nodup_cons.mp hd.2).1
  have hxy : x.1 ≠ y.1 := fun e => hd.1 (by simp [e])
  refine ⟨?_, seg_setNext_frame hd.1 (seg_setPrev_head hyy hs)⟩
  simp [setNext, setPrev, Function.update_of_ne hxy, hx]

end MiniKvs.Lib.DList
