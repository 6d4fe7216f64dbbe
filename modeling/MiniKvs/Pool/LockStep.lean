import MiniKvs.Pool.BufferPool
import MiniKvs.Pool.LruRecency

/-! The buffer pool as an LRU cache. Hash table and list stay in lock-step with
the cache until a page is removed that a `get` has moved to the front: its stale
back pointer then keeps the unlinked node in front. -/

namespace MiniKvs

open Lib Lib.DList

variable {δ : Type}

/-- The cache: its pages, most recently used first, and the size of the directory
that decides when the cache is full. -/
structure Cache (δ : Type) where
  depth : ℕ
  held : List (String × δ)

namespace Cache

def ids (c : Cache δ) : List String := c.held.map Prod.fst

def find (c : Cache δ) (id : String) : Option (String × δ) := c.held.find? fun x => x.1 = id

/-- Grow while the directory may grow, then drop the least recently used page. -/
def makeRoom (maxDepth : ℕ) (c : Cache δ) : Cache δ :=
  if BufferPool.overThreshold c.held.length (2 ^ c.depth) then
    if c.depth = maxDepth then { c with held := c.held.dropLast }
    else { c with depth := c.depth + 1 }
  else c

def insert (maxDepth : ℕ) (c : Cache δ) (id : String) (data : δ) : Cache δ :=
  { c.makeRoom maxDepth with held := (id, data) :: (c.makeRoom maxDepth).held }

/-- A page that is asked for becomes the most recently used one. -/
def get (c : Cache δ) (id : String) : Cache δ :=
  match c.find id with
  | none => c
  | some x => { c with held := x :: c.held.filter fun y => y.1 ≠ id }

def remove (c : Cache δ) (id : String) : Cache δ :=
  { c with held := c.held.filter fun y => y.1 ≠ id }

end Cache

namespace LRU

/-- The front node holds `key` and has a back pointer. -/
def StaleFront (l : LRU) (key : String) : Prop :=
  l.front ≠ none ∧ l.nodeMap.find key = some l.front ∧ l.frontPrev ≠ none

instance (l : LRU) (key : String) : Decidable (l.StaleFront key) :=
  inferInstanceAs (Decidable (_ ∧ _ ∧ _))

theorem Linked.staleFront {l : LRU} {p : Option ℕ} {a : ℕ} {k : String} {ns : List (ℕ × String)}
    (h : Linked l p ((a, k) :: ns)) : l.StaleFront k ↔ p ≠ none := by
  have hf : l.front = some a := h.front
  have hk : l.nodeMap.find k = some (some a) := h.find_front
  rw [StaleFront, h.frontPrev, hf, hk]
  simp

theorem Linked.exists_front {l : LRU} {p : Option ℕ} {k : String} {ns : List (ℕ × String)}
    (h : Linked l p ns) (hf : l.StaleFront k) : ∃ a ns', ns = (a, k) :: ns' ∧ p ≠ none := by
  obtain ⟨hne, hk, hprev⟩ := hf
  cases ns with
  | nil => exact absurd h.front hne
  | cons x ns =>
    have hx : l.front = some x.1 := h.front
    rw [h.frontPrev] at hprev
    rw [hx, h.map] at hk
    obtain ⟨a, ha, hm⟩ := hk
    have hxa : x = (a, k) :=
      List.inj_on_of_nodup_map h.addrs List.mem_cons_self hm (by simpa using ha)
    exact ⟨a, ns, by rw [hxa], hprev⟩

/-- Taking out another node gives no new stale front. -/
theorem Linked.staleFront_of_unlink {l l' : LRU} {p : Option ℕ} {a : ℕ} {k k' : String}
    {xs ys : List (ℕ × String)} (h : Linked l p (xs ++ (a, k) :: ys)) (hp : xs = [] → p = none)
    (h' : Linked l' p (xs ++ ys)) (hf : l'.StaleFront k') : l.StaleFront k' := by
  obtain ⟨b, ns, hns, hne⟩ := h'.exists_front hf
  cases xs with
  | nil => exact absurd (hp rfl) hne
  | cons x xs =>
    obtain rfl : x = (b, k') := (List.cons.inj hns).1
    exact h.staleFront.mpr hne

/-- A stale front node is still in front when it has been removed. -/
theorem Linked.remove_staleFront {l l' : LRU} {p : Option ℕ} {a : ℕ} {k : String}
    {ns : List (ℕ × String)} (h : Linked l p ((a, k) :: ns)) (hp : p ≠ none)
    (hr : l.remove k = .ok l') : l'.front = some a ∧ ∃ n, l'.heap a = some n ∧ n.key = k := by
  obtain ⟨z, rfl⟩ := Option.ne_none_iff_exists'.mp hp
  have hk : l.nodeMap.find k = some (some a) := h.find_front
  have hd : deref l.heap (some a) = .ok ⟨some z, headPtr ns none, k⟩ := by
    simp only [deref, h.seg.1]
  have hf : l.front = some a := h.front
  have hkey : ∀ (H : DList.Heap String) (c : ℕ) (q : Option ℕ), (∃ n, H a = some n ∧ n.key = k) →
      (∃ n, setNext H c q a = some n ∧ n.key = k) ∧
        ∃ n, setPrev H c q a = some n ∧ n.key = k := by
    rintro H c q ⟨n, hn, hnk⟩
    by_cases hc : a = c
    · subst hc
      exact ⟨⟨{ n with next := q }, by simp [setNext, hn], hnk⟩,
        ⟨{ n with prev := q }, by simp [setPrev, hn], hnk⟩⟩
    · rw [setNext_of_ne _ _ hc, setPrev_of_ne _ _ hc]
      exact ⟨⟨n, hn, hnk⟩, ⟨n, hn, hnk⟩⟩
  have h0 : ∃ n, l.heap a = some n ∧ n.key = k := ⟨_, h.seg.1, rfl⟩
  obtain ⟨n, hn, hnk⟩ := (hkey l.heap z (headPtr ns none) h0).1
  have hd' : deref (setNext l.heap z (headPtr ns none)) (some a) = .ok n := by
    simp only [deref, hn]
  simp only [LRU.remove, hk, hd, ok_bind, reduceCtorEq, if_false, assignNext, hd'] at hr
  split_ifs at hr with hnext
  · cases hr
    exact ⟨hf, n, hn, hnk⟩
  · obtain ⟨b, hb⟩ := Option.ne_none_iff_exists'.mp hnext
    rw [hb] at hr
    cases hr
    exact ⟨hf, (hkey _ b n.prev ⟨n, hn, hnk⟩).2⟩

end LRU

namespace BufferPool

/-- The pool holds the pages of the cache, with the list in the cache's order;
only the front node's back pointer may be wrong, and not in a pool of one page. -/
structure InStep (xxh64 : String → UInt64) (maxDepth : ℕ) (pool : BufferPool δ) (c : Cache δ) :
    Prop where
  pages : ∃ ps, Holds xxh64 pool ps ∧ (ps.map fun p => (p.pageId, p.data)).Perm c.held
  order : ∃ p ns, pool.evictionPolicy.Linked p ns ∧ ns.map Prod.snd = c.ids ∧
    (maxDepth = 0 → p = none)
  single : maxDepth = 0 → c.held.length ≤ 1
  depth : pool.hashtable.globalDepth = c.depth
  maxDepth : pool.hashtable.maxDepth = maxDepth

inductive Op (δ : Type)
  | insert (id : String) (data : δ)
  | get (id : String)
  | remove (id : String)

/-- One call, with the page data it returns. -/
def step (xxh64 : String → UInt64) : Op δ → BufferPool δ → Outcome (Option δ × BufferPool δ)
  | .insert id data, pool => (pool.insert xxh64 id data).map fun pool => (none, pool)
  | .get id, pool => pool.get xxh64 id
  | .remove id, pool => (pool.remove xxh64 id).map fun pool => (none, pool)

def next (maxDepth : ℕ) : Op δ → Cache δ → Cache δ
  | .insert id data, c => c.insert maxDepth id data
  | .get id, c => c.get id
  | .remove id, c => c.remove id

def answer : Op δ → Cache δ → Option δ
  | .get id, c => (c.find id).map Prod.snd
  | _, _ => none

/-- A page is only inserted while it is not held. -/
def Allowed (c : Cache δ) : Op δ → Prop
  | .insert id _ => id ∉ c.ids
  | _ => True

instance (c : Cache δ) : (op : Op δ) → Decidable (Allowed c op)
  | .insert id _ => inferInstanceAs (Decidable (id ∉ c.ids))
  | .get _ => .isTrue trivial
  | .remove _ => .isTrue trivial

/-- A `remove` of the front page finds its back pointer null. -/
def KeepsFront (pool : BufferPool δ) : Op δ → Prop
  | .remove id => ¬ pool.evictionPolicy.StaleFront id
  | _ => True

instance (pool : BufferPool δ) : (op : Op δ) → Decidable (KeepsFront pool op)
  | .insert _ _ => .isTrue trivial
  | .get _ => .isTrue trivial
  | .remove id => inferInstanceAs (Decidable (¬ pool.evictionPolicy.StaleFront id))

/-- Every state of the run is in lock-step with the cache and every call answers as it does. -/
def LockStep (xxh64 : String → UInt64) (maxDepth : ℕ) : BufferPool δ → Cache δ → List (Op δ) → Prop
  | pool, c, [] => InStep xxh64 maxDepth pool c
  | pool, c, op :: ops => InStep xxh64 maxDepth pool c ∧
      ∃ pool', step xxh64 op pool = .ok (answer op c, pool') ∧
        LockStep xxh64 maxDepth pool' (next maxDepth op c) ops

theorem overThreshold_pos {size numDirectory : ℕ} (h : overThreshold size numDirectory)
    (hn : 1 ≤ numDirectory) : 1 ≤ size ∧ (2 ≤ numDirectory → 2 ≤ size) := by
  simp only [overThreshold, decide_eq_true_eq] at h
  have h0 : Utils.toFloat 0 = 0 := Utils.toFloat_of_lt (by norm_num)
  have h1 : Utils.toFloat 1 = 1 := Utils.toFloat_of_lt (by norm_num)
  rcases size with _ | _ | size
  · omega
  · rw [zero_add] at h
    omega
  · omega

variable {xxh64 : String → UInt64} {maxDepth : ℕ} {pool pool' : BufferPool δ} {c : Cache δ}

theorem new_inStep {minSize maxSize : ℕ} (hle : minSize ≤ maxSize) (hmax : maxSize < 2147483648) :
    InStep xxh64 (Nat.log 2 maxSize) (new minSize maxSize : BufferPool δ)
      ⟨Nat.log 2 minSize, []⟩ where
  pages := ⟨[], new_holds hle hmax, List.Perm.refl _⟩
  order := ⟨none, [], LRU.new_linked, rfl, fun _ => rfl⟩
  single _ := Nat.zero_le _
  depth := rfl
  maxDepth := rfl

namespace InStep

theorem ids_nodup (h : InStep xxh64 maxDepth pool c) : c.ids.Nodup := by
  obtain ⟨p, ns, hl, he, -⟩ := h.order
  exact he ▸ hl.keys

theorem find_eq_some (h : InStep xxh64 maxDepth pool c) {id : String} {x : String × δ} :
    c.find id = some x ↔ x ∈ c.held ∧ x.1 = id := by
  constructor
  · intro hf
    exact ⟨List.mem_of_find?_eq_some hf, by simpa using List.find?_some hf⟩
  · rintro ⟨hx, rfl⟩
    obtain ⟨y, hy⟩ : ∃ y, c.find x.1 = some y := by
      rw [← Option.isSome_iff_exists, Cache.find, List.find?_isSome]
      exact ⟨x, hx, by simp⟩
    rw [hy, List.inj_on_of_nodup_map h.ids_nodup (List.mem_of_find?_eq_some hy) hx
      (by simpa using List.find?_some hy)]

/-- The page the hash table finds is the one the cache holds. -/
theorem getPage (h : InStep xxh64 maxDepth pool c) (id : String) :
    (pool.hashtable.getPage xxh64 id).map (fun p => (p.pageId, p.data)) = c.find id := by
  obtain ⟨ps, hh, hp⟩ := h.pages
  ext x
  rw [Option.map_eq_some_iff, h.find_eq_some, ← hp.mem_iff, List.mem_map]
  constructor
  · rintro ⟨p, hg, rfl⟩
    obtain ⟨hm, rfl⟩ := hh.getPage_eq_some.mp hg
    exact ⟨⟨p, hm, rfl⟩, rfl⟩
  · rintro ⟨⟨p, hm, rfl⟩, rfl⟩
    exact ⟨p, hh.getPage_eq_some.mpr ⟨hm, rfl⟩, rfl⟩

theorem filter_pages {ps : List (Page δ)} (hp : (ps.map fun p => (p.pageId, p.data)).Perm c.held)
    (id : String) : ((ps.filter fun q => q.pageId ≠ id).map fun p => (p.pageId, p.data)).Perm
      (c.held.filter fun y => y.1 ≠ id) := by
  have := hp.filter fun y => y.1 ≠ id
  rwa [List.filter_map] at this

/-- The ids without one that the list has in the middle. -/
theorem ids_filter {xs ys : List (ℕ × String)} {a : ℕ} {k : String}
    (hd : ((xs ++ (a, k) :: ys).map Prod.snd).Nodup)
    (he : (xs ++ (a, k) :: ys).map Prod.snd = c.ids) :
    (xs ++ ys).map Prod.snd = (c.held.filter fun y => y.1 ≠ k).map Prod.fst := by
  have hfilter : (c.held.filter fun y => y.1 ≠ k).map Prod.fst = c.ids.filter (· ≠ k) := by
    rw [Cache.ids, List.filter_map]; rfl
  have herase : (c.ids.erase k) = (xs ++ ys).map Prod.snd := by
    rw [← he, List.map_append, List.nodup_append] at *
    have hnot : k ∉ xs.map Prod.snd := fun hx => hd.2.2 k hx k (by simp) rfl
    rw [List.erase_append_right _ hnot, List.map_cons, List.erase_cons_head, List.map_append]
  rw [hfilter, ← herase, (he ▸ hd : c.ids.Nodup).erase_eq_filter]
  apply List.filter_congr
  intro y _
  by_cases hy : y = k <;> simp [hy]

theorem get (h : InStep xxh64 maxDepth pool c) (id : String) :
    ∃ pool', pool.get xxh64 id = .ok ((c.find id).map Prod.snd, pool') ∧
      InStep xxh64 maxDepth pool' (c.get id) := by
  have hg := h.getPage id
  cases hf : pool.hashtable.getPage xxh64 id with
  | none =>
    rw [hf] at hg
    refine ⟨pool, ?_, ?_⟩
    · rw [BufferPool.get, hf, ← hg]; rfl
    · rw [Cache.get, ← hg]; exact h
  | some q =>
    rw [hf] at hg
    obtain ⟨ps, hh, hp⟩ := h.pages
    obtain ⟨hx, rfl⟩ := h.find_eq_some.mp hg.symm
    obtain ⟨p, ns, hl, he, hp0⟩ := h.order
    have hk : q.pageId ∈ ns.map Prod.snd := he ▸ List.mem_map_of_mem hx
    obtain ⟨xs, a, ys, rfl, -⟩ := LRU.split_key hl.keys hk
    have hids : (c.get q.pageId).ids = q.pageId :: (xs ++ ys).map Prod.snd := by
      rw [Cache.get, ← hg, ids_filter hl.keys he]; rfl
    obtain ⟨l', hu, p', hl', hp'⟩ : ∃ l', pool.evictionPolicy.update q.pageId = .ok l' ∧
        ∃ p', l'.Linked p' ((a, q.pageId) :: (xs ++ ys)) ∧ (maxDepth = 0 → p' = none) := by
      by_cases hxs : xs = []
      · subst hxs
        exact ⟨_, hl.update_front, p, hl, hp0⟩
      · obtain ⟨l', hu, hl'⟩ := hl.update hxs
        refine ⟨l', hu, _, hl', fun h0 => ?_⟩
        have hlen : (xs ++ (a, q.pageId) :: ys).length = c.held.length := by
          have := congrArg List.length he
          simpa [Cache.ids] using this
        have := h.single h0
        have := List.length_pos_iff.mpr hxs
        simp only [List.length_append, List.length_cons] at hlen
        omega
    have hheld : (c.get q.pageId).held =
        (q.pageId, q.data) :: c.held.filter fun y => y.1 ≠ q.pageId := by
      rw [Cache.get, ← hg]; rfl
    have hperm : c.held.Perm (c.get q.pageId).held := by
      rw [hheld]
      refine (List.perm_ext_iff_of_nodup (h.ids_nodup.of_map _) ?_).mpr fun y => ?_
      · refine List.nodup_cons.mpr ⟨by simp, ?_⟩
        exact (h.ids_nodup.of_map _).sublist List.filter_sublist
      · rw [List.mem_cons, List.mem_filter]
        constructor
        · intro hy
          by_cases hid : y.1 = q.pageId
          · exact .inl (List.inj_on_of_nodup_map h.ids_nodup hy hx hid)
          · exact .inr ⟨hy, by simpa using hid⟩
        · rintro (rfl | ⟨hy, -⟩)
          · exact hx
          · exact hy
    refine ⟨{ pool with evictionPolicy := l' }, ?_, ⟨ps, ⟨hh.table, hh.addrs⟩, hp.trans hperm⟩,
      ⟨p', _, hl', hids.symm, hp'⟩, fun h0 => ?_, ?_, h.maxDepth⟩
    · rw [BufferPool.get, hf, ← hg]
      simp only [hu, ok_bind]
      rfl
    · rw [← hperm.length_eq]; exact h.single h0
    · rw [Cache.get, ← hg]; exact h.depth

theorem remove (h : InStep xxh64 maxDepth pool c) {id : String}
    (hf : ¬ pool.evictionPolicy.StaleFront id) :
    ∃ pool', pool.remove xxh64 id = .ok pool' ∧ InStep xxh64 maxDepth pool' (c.remove id) ∧
      ∀ id', pool'.evictionPolicy.StaleFront id' → pool.evictionPolicy.StaleFront id' := by
  have hg := h.getPage id
  obtain ⟨ps, hh, hp⟩ := h.pages
  cases hq : pool.hashtable.getPage xxh64 id with
  | none =>
    have hself : c.remove id = c := by
      have hn : ∀ y ∈ c.held, y.1 ≠ id := by
        rintro y hy rfl
        rw [hq, h.find_eq_some.mpr ⟨hy, rfl⟩] at hg
        cases hg
      rw [Cache.remove, List.filter_eq_self.mpr (by simpa using hn)]
    exact ⟨pool, by rw [BufferPool.remove, hq], by rw [hself]; exact h, fun _ hs => hs⟩
  | some q =>
    rw [hq] at hg
    obtain ⟨hm, rfl⟩ := hh.getPage_eq_some.mp hq
    obtain ⟨hx, -⟩ := h.find_eq_some.mp hg.symm
    obtain ⟨p, ns, hl, he, hp0⟩ := h.order
    have hk : q.pageId ∈ ns.map Prod.snd := he ▸ List.mem_map_of_mem hx
    obtain ⟨xs, a, ys, rfl, -⟩ := LRU.split_key hl.keys hk
    have hfront : xs = [] → p = none := fun hxs => by
      subst hxs
      exact not_not.mp (mt hl.staleFront.mpr hf)
    obtain ⟨l', hr, hl'⟩ := hl.remove hfront
    obtain ⟨t, ht, hh', hd, hmax⟩ := hh.removePage hm l'
    refine ⟨_, by rw [BufferPool.remove, hq]; simp only [ht, ok_bind, hr],
      ⟨⟨_, hh', filter_pages hp _⟩, ⟨p, _, hl', ids_filter hl.keys he, hp0⟩, fun h0 => ?_,
      hd.trans h.depth, hmax.trans h.maxDepth⟩, fun _ => hl.staleFront_of_unlink hfront hl'⟩
    exact (List.length_filter_le _ _).trans (h.single h0)

theorem evict (h : InStep xxh64 maxDepth pool c)
    (ho : overThreshold c.held.length (2 ^ c.depth)) (hd : c.depth = maxDepth) :
    ∃ pool', pool.evict xxh64 = .ok pool' ∧
      InStep xxh64 maxDepth pool' { c with held := c.held.dropLast } := by
  obtain ⟨ps, hh, hp⟩ := h.pages
  obtain ⟨p, ns, hl, he, hp0⟩ := h.order
  have hlen : ns.length = c.held.length := by
    have := congrArg List.length he
    simpa [Cache.ids] using this
  obtain ⟨hpos, htwo⟩ := overThreshold_pos ho Nat.one_le_two_pow
  obtain ⟨xs, ⟨a, k⟩, rfl⟩ := (List.eq_nil_or_concat' ns).resolve_left fun hn => by
    rw [hn, List.length_nil] at hlen; omega
  obtain ⟨zs, z, hz⟩ := (List.eq_nil_or_concat' c.held).resolve_left fun hn => by
    rw [hn, List.length_nil] at hpos; omega
  have hids : xs.map Prod.snd = zs.map Prod.fst ∧ k = z.1 := by
    rw [Cache.ids, hz] at he
    simpa using he
  obtain ⟨hxs, rfl⟩ := hids
  -- a pool of two directories or more never evicts its only page
  obtain ⟨l', hev, hl'⟩ := hl.evict fun hx => by
    subst hx
    refine hp0 (Nat.eq_zero_of_not_pos fun h0 => ?_)
    have h2 : 2 ≤ 2 ^ c.depth := by
      calc 2 = 2 ^ 1 := rfl
        _ ≤ 2 ^ c.depth := Nat.pow_le_pow_right (by norm_num) (by omega)
    have := htwo h2
    simp only [List.nil_append, List.length_singleton] at hlen
    omega
  have hzm : z ∈ c.held := by simp [hz]
  have hg := h.getPage z.1
  rw [h.find_eq_some.mpr ⟨hzm, rfl⟩, Option.map_eq_some_iff] at hg
  obtain ⟨q, hq, hqz⟩ := hg
  obtain ⟨hm, hqid⟩ := hh.getPage_eq_some.mp hq
  obtain ⟨t, ht, hh', hd', hmax⟩ := hh.removePage hm l'
  have hdrop : c.held.dropLast = c.held.filter fun y => y.1 ≠ q.pageId := by
    have hnd := h.ids_nodup
    rw [Cache.ids, hz, List.map_append, List.nodup_append] at hnd
    rw [hz, List.dropLast_concat, List.filter_append, hqid, List.filter_eq_self.mpr]
    · simp
    · intro y hy
      have := hnd.2.2 y.1 (List.mem_map_of_mem hy) z.1 (by simp)
      simpa using this
  refine ⟨_, by rw [BufferPool.evict, hev]; simp only [ok_bind, hq, ht], ⟨_, hh', ?_⟩,
    ⟨p, xs, hl', ?_, hp0⟩, fun h0 => ?_, hd'.trans h.depth, hmax.trans h.maxDepth⟩
  · rw [hdrop]; exact filter_pages hp _
  · rw [Cache.ids, hz, List.dropLast_concat, hxs]
  · exact (List.length_dropLast ▸ Nat.sub_le _ _ : c.held.dropLast.length ≤ _).trans (h.single h0)

theorem makeRoom (h : InStep xxh64 maxDepth pool c) :
    ∃ pool', pool.makeRoom xxh64 = .ok pool' ∧ InStep xxh64 maxDepth pool' (c.makeRoom maxDepth) ∧
      (maxDepth = 0 → (c.makeRoom maxDepth).held = []) := by
  obtain ⟨ps, hh, hp⟩ := h.pages
  have hsize : pool.hashtable.size.toNat = c.held.length := by
    rw [hh.size, ← hp.length_eq, List.length_map]
  have hnum : pool.hashtable.getNumDirectory = 2 ^ c.depth := by
    rw [hh.table.sound.numDirectory, h.depth]
  have hdepth := hh.table.sound.depth
  simp only [BufferPool.makeRoom, Cache.makeRoom, hsize, hnum]
  split_ifs with h1 h2 h3 h4
  · -- the directory expands
    rw [ExtendibleHashtable.expandDirectory, h.depth, h.maxDepth, if_pos h3] at h2
    cases h2
  · obtain ⟨ps, hh, hp⟩ := h.pages
    have hgd : pool.hashtable.expandDirectory.2.globalDepth = c.depth + 1 := by
      rw [ExtendibleHashtable.expandDirectory, h.depth, h.maxDepth, if_neg h3]
    have hmd : pool.hashtable.expandDirectory.2.maxDepth = maxDepth := by
      rw [ExtendibleHashtable.expandDirectory, h.depth, h.maxDepth, if_neg h3]
    refine ⟨_, rfl, ⟨⟨ps, hh.expandDirectory, hp⟩, h.order, h.single, hgd, hmd⟩, fun h0 => ?_⟩
    rw [h.depth, h.maxDepth, h0] at hdepth
    omega
  · -- it is at its maximum
    obtain ⟨pool', he, hin⟩ := h.evict h1 h4
    refine ⟨pool', ?_, hin, fun h0 => ?_⟩
    · have hself : pool.hashtable.expandDirectory.2 = pool.hashtable := by
        rw [ExtendibleHashtable.expandDirectory, h.depth, h.maxDepth, if_pos h4]
      rw [hself]; exact he
    · have := h.single h0
      rw [← List.length_eq_zero_iff, List.length_dropLast]; omega
  · exact absurd (by rw [ExtendibleHashtable.expandDirectory, h.depth, h.maxDepth, if_neg h4]) h2
  · refine ⟨pool, rfl, h, fun h0 => ?_⟩
    have := h.single h0
    rw [h.depth, h.maxDepth, h0] at hdepth
    rw [Nat.le_zero.mp hdepth] at h1
    by_contra hne
    have hlen : c.held.length = 1 := by
      have := List.length_pos_iff.mpr hne
      omega
    rw [hlen, overThreshold, Utils.toFloat_of_lt (by norm_num)] at h1
    exact h1 rfl

theorem insert (h : InStep xxh64 maxDepth pool c) {id : String} (hid : id ∉ c.ids) (data : δ) :
    ∃ pool', pool.insert xxh64 id data = .ok pool' ∧
      InStep xxh64 maxDepth pool' (c.insert maxDepth id data) := by
  obtain ⟨pool₁, h₁, hin, h0⟩ := h.makeRoom
  have hsub : (c.makeRoom maxDepth).held.Sublist c.held := by
    rw [Cache.makeRoom]
    split_ifs
    · exact List.dropLast_sublist _
    · exact List.Sublist.refl _
    · exact List.Sublist.refl _
  have hid' : id ∉ (c.makeRoom maxDepth).ids := fun hm => hid ((hsub.map _).subset hm)
  obtain ⟨ps, hh, hp⟩ := hin.pages
  obtain ⟨p, ns, hl, he, -⟩ := hin.order
  obtain ⟨t, ht, hh', hd, hmax⟩ := hh.insertPage data (fun q hq hqid => hid' (List.mem_map.mpr
    ⟨(q.pageId, q.data), hp.mem_iff.mp (List.mem_map.mpr ⟨q, hq, rfl⟩), hqid⟩))
    (pool₁.evictionPolicy.insert id)
  refine ⟨_, by rw [BufferPool.insert, h₁]; simp only [ok_bind, ht], ⟨_, hh', hp.cons _⟩,
    ⟨none, _, hl.insert (he ▸ hid'), by rw [List.map_cons, he]; rfl, fun _ => rfl⟩, fun hm => ?_,
    hd.trans hin.depth, hmax.trans hin.maxDepth⟩
  rw [Cache.insert, h0 hm]; rfl

/-- Once the removed page stays in front, no cache is in step with the pool. -/
theorem not_remove (h : InStep xxh64 maxDepth pool c) {id : String}
    (hf : pool.evictionPolicy.StaleFront id) (hr : pool.remove xxh64 id = .ok pool') :
    ¬ InStep xxh64 maxDepth pool' (c.remove id) := by
  obtain ⟨p, ns, hl, he, -⟩ := h.order
  obtain ⟨⟨a, k⟩, ns, rfl⟩ : ∃ x xs, ns = x :: xs := by
    apply List.exists_cons_of_ne_nil
    rintro rfl
    exact hf.1 hl.front
  obtain rfl : k = id := by
    have hfront : pool.evictionPolicy.front = some a := hl.front
    obtain ⟨b, hb, hm⟩ := (hl.map id _).mp hf.2.1
    rw [hfront, Option.some.injEq] at hb
    subst hb
    exact congrArg Prod.snd (List.inj_on_of_nodup_map hl.addrs List.mem_cons_self hm rfl)
  have hk : k ∈ c.ids := he ▸ (by simp)
  obtain ⟨x, hx, rfl⟩ := List.mem_map.mp hk
  have hg := h.getPage x.1
  rw [h.find_eq_some.mpr ⟨hx, rfl⟩, Option.map_eq_some_iff] at hg
  obtain ⟨q, hq, -⟩ := hg
  rw [BufferPool.remove, hq] at hr
  obtain ⟨t, -, hr⟩ := bind_eq_ok.mp hr
  obtain ⟨l', hl', hr⟩ := bind_eq_ok.mp hr
  cases hr
  obtain ⟨hfront, n, hn, hnk⟩ := hl.remove_staleFront (hl.staleFront.mp hf) hl'
  rintro ⟨-, ⟨p', ns', hl'', he', -⟩, -⟩
  cases ns' with
  | nil =>
    have := hl''.front
    rw [hfront] at this
    cases this
  | cons y ns' =>
    have hy : some a = some y.1 := hfront.symm.trans hl''.front
    have hs := hl''.seg.1
    rw [← Option.some.inj hy, hn, Option.some.injEq] at hs
    have hmem : x.1 ∈ (c.remove x.1).ids := by
      rw [← he', ← hnk, hs]; simp
    simp [Cache.ids, Cache.remove] at hmem

theorem step (h : InStep xxh64 maxDepth pool c) {op : Op δ} (ha : Allowed c op)
    (hk : KeepsFront pool op) : ∃ pool', step xxh64 op pool = .ok (answer op c, pool') ∧
      InStep xxh64 maxDepth pool' (next maxDepth op c) := by
  cases op with
  | insert id data =>
    obtain ⟨pool', hi, hin⟩ := h.insert ha data
    exact ⟨pool', by rw [BufferPool.step, hi]; rfl, hin⟩
  | get id => exact h.get id
  | remove id =>
    obtain ⟨pool', hr, hin, -⟩ := h.remove hk
    exact ⟨pool', by rw [BufferPool.step, hr]; rfl, hin⟩

end InStep

theorem LockStep.inStep {ops : List (Op δ)} (h : LockStep xxh64 maxDepth pool c ops) :
    InStep xxh64 maxDepth pool c := by
  cases ops with
  | nil => exact h
  | cons op ops => exact h.1

theorem LockStep.run {ops : List (Op δ)} (h : LockStep xxh64 maxDepth pool c ops) :
    ∃ rs pool', Lib.run (step xxh64) ops pool = .ok (rs, pool') := by
  induction ops generalizing pool c with
  | nil => exact ⟨[], pool, rfl⟩
  | cons op ops ih =>
    obtain ⟨-, pool₁, h₁, h₂⟩ := h
    obtain ⟨rs, pool', hr⟩ := ih h₂
    exact ⟨_, pool', (run_cons_eq_ok _).mpr ⟨_, pool₁, _, h₁, hr, rfl⟩⟩

/-- A run of the pool stays in lock-step with the cache exactly when no `remove`
of the run meets a front page that a `get` moved there. -/
theorem lockStep_iff_keepsFront (xxh64 : String → UInt64) {minSize maxSize : ℕ}
    (hle : minSize ≤ maxSize) (hmax : maxSize < 2147483648) (ops : List (Op δ))
    (h : AlongTotal (next (Nat.log 2 maxSize)) Allowed ⟨Nat.log 2 minSize, []⟩ ops) :
    LockStep xxh64 (Nat.log 2 maxSize) (new minSize maxSize) ⟨Nat.log 2 minSize, []⟩ ops ↔
      Along (step xxh64) KeepsFront (new minSize maxSize) ops := by
  have hin : InStep xxh64 (Nat.log 2 maxSize) (new minSize maxSize : BufferPool δ)
      ⟨Nat.log 2 minSize, []⟩ := new_inStep hle hmax
  revert h hin
  generalize (new minSize maxSize : BufferPool δ) = pool
  generalize (⟨Nat.log 2 minSize, []⟩ : Cache δ) = c
  intro h hin
  induction ops generalizing pool c with
  | nil => exact iff_of_true hin trivial
  | cons op ops ih =>
    constructor
    · rintro ⟨-, pool', hs, hl⟩
      have hk : KeepsFront pool op := by
        cases op with
        | remove id =>
          intro hf
          rw [step] at hs
          cases hr : pool.remove xxh64 id with
          | error e => rw [hr] at hs; cases hs
          | ok pool₁ =>
            rw [hr] at hs
            cases hs
            exact hin.not_remove hf hr hl.inStep
        | insert id data => trivial
        | get id => trivial
      refine ⟨hk, fun r pool₁ h₁ => ?_⟩
      rw [hs] at h₁
      cases h₁
      exact (ih _ _ h.2 hl.inStep).mp hl
    · rintro ⟨hk, ht⟩
      obtain ⟨pool', hs, hin'⟩ := hin.step h.1 hk
      exact ⟨hin, pool', hs, (ih _ _ h.2 hin').mpr (ht _ _ hs)⟩

/-- A page is asked for, and removed when another one stands in front; the last insertion
drops a page. -/
theorem lockStep_iff_keepsFront_get_remove : LockStep (fun _ => 0) 1 (new 1 2) ⟨0, []⟩
    [.insert "a" 0, .insert "b" 1, .get "a", .insert "c" 2, .remove "a", .insert "d" 3] := by
  have h2 : Nat.log 2 2 = 1 := Nat.log_pow Nat.one_lt_two 1
  have h := lockStep_iff_keepsFront (fun _ => 0) (by norm_num : 1 ≤ 2) (by norm_num)
    [.insert "a" 0, .insert "b" 1, .get "a", .insert "c" 2, .remove "a", .insert "d" 3]
    (by rw [h2]; decide)
  rw [h2] at h
  exact h.mpr (by decide)

/-- Removing a page right after it was asked for ends in a null dereference three
inserts later: the list gives up a key twice. -/
theorem not_lockStep_get_remove : ¬ ∀ ops : List (Op ℕ),
    AlongTotal (next 1) Allowed ⟨0, []⟩ ops → LockStep (fun _ => 0) 1 (new 1 2) ⟨0, []⟩ ops := by
  intro h
  have hl := h [.insert "a" 0, .insert "b" 1, .get "a", .remove "a", .insert "c" 2,
    .insert "d" 3, .insert "e" 4] (by decide)
  have hrun : run (step fun _ => 0) [.insert "a" 0, .insert "b" 1, .get "a", .remove "a",
    .insert "c" 2, .insert "d" 3, .insert "e" 4] (new 1 2) = .error .nullDereference := by
    rfl
  obtain ⟨rs, pool, hr⟩ := hl.run
  rw [hrun] at hr
  cases hr

end BufferPool

end MiniKvs
