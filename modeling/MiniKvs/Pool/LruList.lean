import MiniKvs.Pool.Lru

/-! What each LRU operation does to the linked list. `Linked l p ns` fixes every
pointer except the back pointer `p` of the front node, which `update` leaves
stale; the operations that read it are stated for a null `p`. -/

namespace MiniKvs.LRU

open Lib Lib.DList

/-- The list holds the nodes `ns`, front first; `p` is the front node's `prev`. -/
structure Linked (l : LRU) (p : Option ℕ) (ns : List (ℕ × String)) : Prop where
  seg : Seg l.heap p ns none
  front : l.front = headPtr ns none
  rear : l.rear = lastPtr none ns
  addrs : (ns.map Prod.fst).Nodup
  keys : (ns.map Prod.snd).Nodup
  map : ∀ k r, l.nodeMap.find k = some r ↔ ∃ a, r = some a ∧ (a, k) ∈ ns
  fresh : ∀ a, l.allocated ≤ a → l.heap a = none

theorem new_linked : Linked new none [] where
  seg := trivial
  front := rfl
  rear := rfl
  addrs := List.nodup_nil
  keys := List.nodup_nil
  map k r := by simp [new]
  fresh _ _ := rfl

/-! ### The heap -/

theorem setPrev_none {h : DList.Heap String} {b : ℕ} (a : ℕ) (p : Option ℕ) (hb : h b = none) :
    setPrev h a p b = none := by
  by_cases hab : b = a
  · subst hab; simp [setPrev, hb]
  · rw [setPrev_of_ne h p hab, hb]

theorem setNext_none {h : DList.Heap String} {b : ℕ} (a : ℕ) (q : Option ℕ) (hb : h b = none) :
    setNext h a q b = none := by
  by_cases hab : b = a
  · subst hab; simp [setNext, hb]
  · rw [setNext_of_ne h q hab, hb]

theorem bypass_none {h : DList.Heap String} {b : ℕ} (p q : Option ℕ) (hb : h b = none) :
    bypass h p q b = none := by
  cases p <;> cases q <;> simp only [bypass]
  · exact hb
  · exact setPrev_none _ _ hb
  · exact setNext_none _ _ hb
  · exact setPrev_none _ _ (setNext_none _ _ hb)

theorem bypass_of_ne (h : DList.Heap String) {p q : Option ℕ} {a : ℕ} (hp : p ≠ some a)
    (hq : q ≠ some a) : bypass h p q a = h a := by
  cases p with
  | none =>
    cases q with
    | none => rfl
    | some b => exact setPrev_of_ne h _ fun e => hq (e ▸ rfl)
  | some c =>
    have hc : a ≠ c := fun e => hp (e ▸ rfl)
    cases q with
    | none => exact setNext_of_ne h _ hc
    | some b =>
      have hb : a ≠ b := fun e => hq (e ▸ rfl)
      exact (setPrev_of_ne _ _ hb).trans (setNext_of_ne h _ hc)

namespace Linked

variable {l : LRU} {p : Option ℕ} {ns xs ys : List (ℕ × String)} {a : ℕ} {k : String}

theorem find_eq_none (hl : Linked l p ns) : l.nodeMap.find k = none ↔ k ∉ ns.map Prod.snd := by
  rw [Option.eq_none_iff_forall_ne_some]
  constructor
  · intro h hk
    obtain ⟨⟨a, k'⟩, hm, rfl⟩ := List.mem_map.mp hk
    exact h (some a) ((hl.map k' _).mpr ⟨a, rfl, hm⟩)
  · intro h r hr
    obtain ⟨a, -, hm⟩ := (hl.map k r).mp hr
    exact h (List.mem_map.mpr ⟨(a, k), hm, rfl⟩)

theorem find_node (hl : Linked l p (xs ++ (a, k) :: ys)) : l.nodeMap.find k = some (some a) :=
  (hl.map k _).mpr ⟨a, rfl, by simp⟩

theorem find_front (hl : Linked l p ((a, k) :: ys)) : l.nodeMap.find k = some (some a) :=
  (hl.map k _).mpr ⟨a, rfl, List.mem_cons_self⟩

theorem deref_node (hl : Linked l p (xs ++ (a, k) :: ys)) :
    deref l.heap (some a) = .ok ⟨lastPtr p xs, headPtr ys none, k⟩ := by
  have h := ((seg_append ..).mp hl.seg).2.1
  simp only at h
  simp only [deref, h]

/-- The neighbours of a node are other nodes. -/
theorem lastPtr_ne_self (hl : Linked l p (xs ++ (a, k) :: ys)) (hx : xs ≠ []) :
    lastPtr p xs ≠ some a := by
  obtain ⟨zs, z, rfl⟩ := List.eq_nil_or_concat' xs |>.resolve_left hx
  have hd := hl.addrs
  simp only [List.map_append, List.map_cons, List.map_nil, List.append_assoc] at hd
  intro e
  simp only [lastPtr_append, lastPtr_cons, lastPtr_nil, Option.some.injEq] at e
  have := (List.nodup_append.mp hd).2.1
  simp [e] at this

theorem headPtr_ne_self (hl : Linked l p (xs ++ (a, k) :: ys)) : headPtr ys none ≠ some a := by
  intro e
  have hd := hl.addrs
  rw [List.map_append, List.nodup_append, List.map_cons, List.nodup_cons] at hd
  cases ys with
  | nil => simp at e
  | cons y ys =>
    simp only [headPtr_cons, Option.some.injEq] at e
    exact hd.2.1.1 (by simp [e])

theorem nodup_unlink (hl : Linked l p (xs ++ (a, k) :: ys)) :
    ((xs ++ ys).map Prod.fst).Nodup ∧ ((xs ++ ys).map Prod.snd).Nodup := by
  have hs : (xs ++ ys).Sublist (xs ++ (a, k) :: ys) :=
    (List.Sublist.refl xs).append (List.sublist_cons_self _ _)
  exact ⟨hl.addrs.sublist (hs.map _), hl.keys.sublist (hs.map _)⟩

theorem nodup_moveFront (hl : Linked l p (xs ++ (a, k) :: ys)) :
    (((a, k) :: (xs ++ ys)).map Prod.fst).Nodup ∧
      (((a, k) :: (xs ++ ys)).map Prod.snd).Nodup := by
  have hp : (xs ++ (a, k) :: ys).Perm ((a, k) :: (xs ++ ys)) := List.perm_middle
  exact ⟨(hp.map _).nodup_iff.mp hl.addrs, (hp.map _).nodup_iff.mp hl.keys⟩

theorem not_mem_unlink (hl : Linked l p (xs ++ (a, k) :: ys)) (b : ℕ) : (b, k) ∉ xs ++ ys := by
  have hd := hl.keys
  rw [List.map_append, List.nodup_append, List.map_cons, List.nodup_cons] at hd
  rw [List.mem_append]
  rintro (hm | hm)
  · exact hd.2.2 k (List.mem_map.mpr ⟨_, hm, rfl⟩) k (by simp) rfl
  · exact hd.2.1.1 (List.mem_map.mpr ⟨_, hm, rfl⟩)

theorem map_erase (hl : Linked l p (xs ++ (a, k) :: ys)) (k' : String) (r : Option ℕ) :
    (l.nodeMap.erase k).find k' = some r ↔ ∃ b, r = some b ∧ (b, k') ∈ xs ++ ys := by
  rw [OrdMap.find_erase]
  split_ifs with hk
  · subst hk
    simp only [false_iff, not_exists, not_and]
    exact fun b _ => hl.not_mem_unlink b
  · rw [hl.map]
    simp [Ne.symm hk]

/-- The rear pointer after a node other than the front one is unlinked. -/
theorem rear_unlink (hl : Linked l p (xs ++ (a, k) :: ys)) (hx : xs ≠ []) :
    (if some a = l.rear then lastPtr p xs else l.rear) = lastPtr none (xs ++ ys) := by
  rw [hl.rear, lastPtr_append, lastPtr_cons]
  rcases List.eq_nil_or_concat' ys with rfl | ⟨zs, z, rfl⟩
  · rw [lastPtr_nil, if_pos rfl, List.append_nil]
    exact lastPtr_congr _ _ hx
  · have hne : a ≠ z.1 := by
      rintro rfl
      have := hl.nodup_moveFront.1
      simp at this
    simp [hne]

/-! ### The operations -/

theorem insert (hl : Linked l p ns) (hk : k ∉ ns.map Prod.snd) :
    Linked (l.insert k) none ((l.allocated, k) :: ns) := by
  have hfresh : l.allocated ∉ ns.map Prod.fst := by
    intro hm
    obtain ⟨x, hx, he⟩ := List.mem_map.mp hm
    obtain ⟨n, hn, -⟩ := seg_key hl.seg hx
    rw [he, hl.fresh _ le_rfl] at hn
    cases hn
  have hdup : (((l.allocated, k) :: ns).map Prod.fst).Nodup :=
    List.nodup_cons.mpr ⟨hfresh, hl.addrs⟩
  have hs := seg_update (some ⟨none, none, k⟩) hfresh hl.seg
  refine ⟨?_, rfl, ?_, hdup, List.nodup_cons.mpr ⟨hk, hl.keys⟩, fun k' r => ?_, fun b hb => ?_⟩
  · cases ns with
    | nil => simp [LRU.insert, hl.front]
    | cons y ys =>
      simp only [LRU.insert, hl.front, headPtr_cons]
      exact seg_push (x := (l.allocated, k)) hdup (Function.update_self ..) hs
  · cases ns with
    | nil => simp [LRU.insert, hl.rear]
    | cons y ys =>
      have : l.rear ≠ none := by rw [hl.rear]; exact lastPtr_ne_none _ (by simp)
      simp only [LRU.insert, if_neg this]
      exact hl.rear
  · simp only [LRU.insert, OrdMap.find_set]
    split_ifs with e
    · subst e
      simp only [Option.some.injEq, List.mem_cons, Prod.mk.injEq, and_true]
      constructor
      · rintro rfl; exact ⟨_, rfl, .inl rfl⟩
      · rintro ⟨b, rfl, rfl | hm⟩
        · rfl
        · exact absurd (List.mem_map.mpr ⟨_, hm, rfl⟩) hk
    · simp [hl.map, Ne.symm e]
  · have hb' : l.heap b = none := hl.fresh b (by simp only [LRU.insert] at hb; omega)
    have hne : b ≠ l.allocated := by simp only [LRU.insert] at hb; omega
    have hu : Function.update l.heap l.allocated (some ⟨none, none, k⟩) b = none := by
      rw [Function.update_of_ne hne, hb']
    simp only [LRU.insert]
    cases l.front with
    | none => exact hu
    | some f => exact setNext_none _ _ (setPrev_none _ _ hu)

theorem remove_absent (hl : Linked l p ns) (hk : k ∉ ns.map Prod.snd) : l.remove k = .ok l := by
  simp only [LRU.remove, hl.find_eq_none.mpr hk]

/-- Removing a node; of the front node only when its back pointer is null. -/
theorem remove (hl : Linked l p (xs ++ (a, k) :: ys)) (hp : xs = [] → p = none) :
    ∃ l', l.remove k = .ok l' ∧ Linked l' p (xs ++ ys) := by
  have hheap : ∃ front rear, l.remove k = .ok
      { l with nodeMap := l.nodeMap.erase k, front := front, rear := rear,
               heap := bypass l.heap (lastPtr p xs) (headPtr ys none) } ∧
      front = headPtr (xs ++ ys) none ∧ rear = lastPtr none (xs ++ ys) := by
    have hd := hl.deref_node
    simp only [LRU.remove, hl.find_node, hd, ok_bind]
    rcases List.eq_nil_or_concat' xs with rfl | ⟨zs, z, rfl⟩
    · obtain rfl := hp rfl
      rw [lastPtr_nil] at hd ⊢
      simp only [if_true, List.nil_append]
      cases ys with
      | nil => exact ⟨_, _, rfl, rfl, rfl⟩
      | cons y ys => exact ⟨_, _, rfl, rfl, hl.rear⟩
    · have hz : a ≠ z.1 := fun e =>
        hl.lastPtr_ne_self (by simp) (by simp [e])
      have hd' : deref (setNext l.heap z.1 (headPtr ys none)) (some a) =
          .ok ⟨some z.1, headPtr ys none, k⟩ := by
        simp only [lastPtr_append, lastPtr_cons, lastPtr_nil] at hd
        simpa only [deref, setNext_of_ne _ _ hz] using hd
      simp only [lastPtr_append, lastPtr_cons, lastPtr_nil, reduceCtorEq, if_false, assignNext,
        ok_bind, hd']
      have hf : l.front = headPtr (zs ++ [z] ++ ys) none := by
        rw [hl.front]; cases zs <;> rfl
      cases ys with
      | nil => exact ⟨_, _, rfl, hf, by simp⟩
      | cons y ys =>
        refine ⟨_, _, rfl, hf, ?_⟩
        rw [hl.rear]; simp
  obtain ⟨front, rear, he, hf, hr⟩ := hheap
  refine ⟨_, he, ?_, hf, hr, hl.nodup_unlink.1, hl.nodup_unlink.2, hl.map_erase, fun b hb => ?_⟩
  · exact seg_unlink hl.addrs hp hl.seg
  · exact bypass_none _ _ (hl.fresh b hb)

/-- Nothing moves when the front key is used again. -/
theorem update_front (hl : Linked l p ((a, k) :: ys)) : l.update k = .ok l := by
  have hfind : l.nodeMap.find k = some (some a) := hl.find_front
  have hm : l.nodeMap.emplace k none = l.nodeMap := by simp [OrdMap.emplace, hfind]
  have hf : some a = l.front := hl.front.symm
  simp only [LRU.update, hfind, Option.getD_some, if_pos hf, hm]

/-- Any other key comes to the front, with a stale back pointer. -/
theorem update (hl : Linked l p (xs ++ (a, k) :: ys)) (hx : xs ≠ []) :
    ∃ l', l.update k = .ok l' ∧ Linked l' (lastPtr p xs) ((a, k) :: (xs ++ ys)) := by
  have hm : l.nodeMap.emplace k none = l.nodeMap := by simp [OrdMap.emplace, hl.find_node]
  have hlast := hl.lastPtr_ne_self hx
  obtain ⟨z, hz⟩ : ∃ z, lastPtr p xs = some z :=
    Option.ne_none_iff_exists'.mp (lastPtr_ne_none _ hx)
  obtain ⟨f, fs, rfl⟩ : ∃ f fs, xs = f :: fs := List.exists_cons_of_ne_nil hx
  have hfront : l.front = some f.1 := hl.front
  have hfa : some a ≠ some f.1 := by
    intro e
    have := hl.nodup_moveFront.1
    simp only [Option.some.injEq] at e
    simp [e] at this
  have hd := hl.deref_node
  have hrear := hl.rear_unlink hx
  rw [hz] at hd hlast hrear ⊢
  have hza : a ≠ z := fun e => hlast (e ▸ rfl)
  -- unlinking leaves the node's own pointers as they were
  have hd' : deref (setNext l.heap z (headPtr ys none)) (some a) =
      .ok ⟨some z, headPtr ys none, k⟩ := by
    simpa only [deref, setNext_of_ne _ _ hza] using hd
  have hnode : bypass l.heap (some z) (headPtr ys none) a = some ⟨some z, headPtr ys none, k⟩ := by
    rw [bypass_of_ne _ hlast hl.headPtr_ne_self, ← hz]
    exact ((seg_append ..).mp hl.seg).2.1
  have hseg : Seg (bypass l.heap (some z) (headPtr ys none)) p (f :: fs ++ ys) none := by
    rw [← hz]
    exact seg_unlink hl.addrs (fun e => absurd e hx) hl.seg
  set B := bypass l.heap (some z) (headPtr ys none) with hB
  refine ⟨{ l with front := some a, rear := lastPtr none (f :: fs ++ ys),
                   heap := setNext (setPrev B f.1 (some a)) a (some f.1) }, ?_, ?_⟩
  · simp only [LRU.update, hl.find_node, Option.getD_some, hfront, if_neg hfa, hm, hd, ok_bind,
      reduceCtorEq, if_false, assignNext, hd', hrear]
    cases ys with
    | nil => rfl
    | cons y ys => rfl
  · refine ⟨?_, rfl, ?_, hl.nodup_moveFront.1, hl.nodup_moveFront.2, fun k' r => ?_,
      fun b hb => ?_⟩
    · exact seg_push (x := (a, k)) hl.nodup_moveFront.1 hnode hseg
    · rw [lastPtr_cons]; exact lastPtr_congr _ _ (by simp)
    · rw [hl.map]
      refine exists_congr fun b => and_congr_right fun _ => ?_
      exact (@List.perm_middle _ _ (f :: fs) _).mem_iff
    · exact setNext_none _ _ (setPrev_none _ _ (bypass_none _ _ (hl.fresh b hb)))

/-- The rear key is evicted; of a list of one node only when its back pointer is null. -/
theorem evict (hl : Linked l p (xs ++ [(a, k)])) (hp : xs = [] → p = none) :
    ∃ l', l.evict = .ok (k, l') ∧ Linked l' p xs := by
  have hrear : l.rear = some a := by rw [hl.rear]; simp
  have hd := hl.deref_node
  have hmap := hl.map_erase
  have hdup := hl.nodup_unlink
  rw [List.append_nil] at hmap hdup
  simp only [LRU.evict, hrear, hd, ok_bind]
  rcases List.eq_nil_or_concat' xs with rfl | ⟨zs, z, rfl⟩
  · obtain rfl := hp rfl
    exact ⟨_, rfl, trivial, rfl, rfl, List.nodup_nil, List.nodup_nil, hmap, hl.fresh⟩
  · simp only [lastPtr_append, lastPtr_cons, lastPtr_nil, reduceCtorEq, if_false, assignNext,
      ok_bind]
    refine ⟨_, rfl, ?_, ?_, by simp, hdup.1, hdup.2, hmap, fun b hb => ?_⟩
    · have hz : z.1 ∉ zs.map Prod.fst := by
        have := hdup.1
        rw [List.map_append, List.nodup_append] at this
        exact fun hm => this.2.2 _ hm z.1 (by simp) rfl
      exact seg_setNext_last hz ((seg_append ..).mp hl.seg).1
    · simp only [hl.front]; cases zs <;> rfl
    · exact setNext_none _ _ (hl.fresh b hb)

end Linked

end MiniKvs.LRU
