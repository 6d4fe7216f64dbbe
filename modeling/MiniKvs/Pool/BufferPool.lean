import MiniKvs.Pool.HashtableRuns
import MiniKvs.Pool.Lru

/-! The buffer pool (`buffer_pool.cpp`): pages in the hash table, their order of
use in the LRU list. What an operation does to the pages does not depend on the
list being intact: whatever key the list gives up, only that page leaves. -/

namespace MiniKvs

open Lib

variable {δ : Type}

structure BufferPool (δ : Type) where
  hashtable : ExtendibleHashtable δ
  evictionPolicy : LRU
  /-- The next free page address. -/
  allocated : ℕ

namespace BufferPool

def new (minSize maxSize : ℕ) : BufferPool δ := ⟨.new minSize maxSize 1, .new, 0⟩

/-- `size > num_directory * EXPANSION_THRESHOLD`, in floats. -/
def overThreshold (size numDirectory : ℕ) : Bool := 3 * numDirectory < 4 * Utils.toFloat size

section Operations

variable (xxh64 : String → UInt64)

def get (pool : BufferPool δ) (pageId : String) : Outcome (Option δ × BufferPool δ) :=
  match pool.hashtable.getPage xxh64 pageId with
  | none => .ok (none, pool)
  | some page => do
    let evictionPolicy ← pool.evictionPolicy.update page.pageId
    .ok (some page.data, { pool with evictionPolicy := evictionPolicy })

def evict (pool : BufferPool δ) : Outcome (BufferPool δ) := do
  let (key, evictionPolicy) ← pool.evictionPolicy.evict
  match pool.hashtable.getPage xxh64 key with
  | none => .error .nullDereference
  | some page =>
    let hashtable ← pool.hashtable.removePage xxh64 page
    .ok { pool with hashtable := hashtable, evictionPolicy := evictionPolicy }

/-- Expand the directory above the load threshold, or evict when it is at its maximum. -/
def makeRoom (pool : BufferPool δ) : Outcome (BufferPool δ) :=
  if overThreshold pool.hashtable.size.toNat pool.hashtable.getNumDirectory then
    let (expanded, hashtable) := pool.hashtable.expandDirectory
    let pool := { pool with hashtable := hashtable }
    if expanded then .ok pool else pool.evict xxh64
  else .ok pool

def insert (pool : BufferPool δ) (pageId : String) (data : δ) : Outcome (BufferPool δ) := do
  let pool ← pool.makeRoom xxh64
  let hashtable ← pool.hashtable.insertPage xxh64 ⟨pool.allocated, pageId, data⟩
  .ok { hashtable := hashtable
        evictionPolicy := pool.evictionPolicy.insert pageId
        allocated := pool.allocated + 1 }

def remove (pool : BufferPool δ) (pageId : String) : Outcome (BufferPool δ) :=
  match pool.hashtable.getPage xxh64 pageId with
  | none => .ok pool
  | some page => do
    let hashtable ← pool.hashtable.removePage xxh64 page
    let evictionPolicy ← pool.evictionPolicy.remove pageId
    .ok { pool with hashtable := hashtable, evictionPolicy := evictionPolicy }

end Operations

/-! ### The pages -/

variable {xxh64 : String → UInt64} {pool pool' : BufferPool δ} {ps : List (Page δ)}

/-- The pool holds exactly the pages `ps`. -/
structure Holds (xxh64 : String → UInt64) (pool : BufferPool δ) (ps : List (Page δ)) : Prop where
  table : pool.hashtable.Holds xxh64 ps
  addrs : ∀ p ∈ ps, p.addr < pool.allocated

theorem new_holds {minSize maxSize : ℕ} (hle : minSize ≤ maxSize) (hmax : maxSize < 2147483648) :
    Holds xxh64 (new minSize maxSize : BufferPool δ) [] :=
  ⟨⟨ExtendibleHashtable.new_sound hle hmax, by simp [new], List.nodup_nil⟩, by simp⟩

namespace Holds

theorem getPage_eq_some (h : Holds xxh64 pool ps) {pageId : String} {p : Page δ} :
    pool.hashtable.getPage xxh64 pageId = some p ↔ p ∈ ps ∧ p.pageId = pageId := by
  rw [h.table.sound.getPage_eq_some, h.table.stored.mem_iff]

theorem getPage_eq_none (h : Holds xxh64 pool ps) {pageId : String} :
    pool.hashtable.getPage xxh64 pageId = none ↔ ∀ p ∈ ps, p.pageId ≠ pageId := by
  rw [h.table.sound.getPage_eq_none]
  exact ⟨fun hn p hp => hn p (h.table.stored.mem_iff.mpr hp),
    fun hn p hp => hn p (h.table.stored.mem_iff.mp hp)⟩

theorem size (h : Holds xxh64 pool ps) : pool.hashtable.size.toNat = ps.length := by
  rw [h.table.sound.size, h.table.stored.length_eq]; rfl

/-- Any page can be removed; only it leaves. -/
theorem removePage (h : Holds xxh64 pool ps) {p : Page δ} (hp : p ∈ ps) (l : LRU) :
    ∃ t, pool.hashtable.removePage xxh64 p = .ok t ∧
      Holds xxh64 { pool with hashtable := t, evictionPolicy := l }
        (ps.filter fun q => q.pageId ≠ p.pageId) ∧
      t.globalDepth = pool.hashtable.globalDepth ∧ t.maxDepth = pool.hashtable.maxDepth := by
  obtain ⟨t, ht, hh, hd⟩ := h.table.removePage hp
  exact ⟨t, ht, ⟨hh, fun q hq => h.addrs q (List.mem_filter.mp hq).1⟩, hd⟩

theorem insertPage (h : Holds xxh64 pool ps) {pageId : String} (data : δ)
    (hf : ∀ p ∈ ps, p.pageId ≠ pageId) (l : LRU) :
    ∃ t, pool.hashtable.insertPage xxh64 ⟨pool.allocated, pageId, data⟩ = .ok t ∧
      Holds xxh64 ⟨t, l, pool.allocated + 1⟩ (⟨pool.allocated, pageId, data⟩ :: ps) ∧
      t.globalDepth = pool.hashtable.globalDepth ∧ t.maxDepth = pool.hashtable.maxDepth := by
  obtain ⟨t, ht, hh, hd⟩ := h.table.insertPage (p := ⟨pool.allocated, pageId, data⟩)
    fun q hq => ⟨hf q hq, (h.addrs q hq).ne⟩
  refine ⟨t, ht, ⟨hh, fun q hq => ?_⟩, hd⟩
  rcases List.mem_cons.mp hq with rfl | hq
  · exact Nat.lt_succ_self _
  · exact (h.addrs q hq).trans (Nat.lt_succ_self _)

theorem get (h : Holds xxh64 pool ps) {pageId : String} {r : Option δ}
    (hg : pool.get xxh64 pageId = .ok (r, pool')) :
    Holds xxh64 pool' ps ∧ r = (ps.find? fun p => p.pageId = pageId).map Page.data := by
  have hfind : pool.hashtable.getPage xxh64 pageId = ps.find? fun p => p.pageId = pageId :=
    (h.table.sound.isMapOf h.table.stored).getPage pageId
  rw [BufferPool.get, hfind] at hg
  cases hf : ps.find? fun p => p.pageId = pageId with
  | none =>
    rw [hf] at hg
    simp only [Except.ok.injEq, Prod.mk.injEq] at hg
    obtain ⟨rfl, rfl⟩ := hg
    exact ⟨h, rfl⟩
  | some p =>
    rw [hf] at hg
    obtain ⟨l, -, hr⟩ := bind_eq_ok.mp hg
    simp only [Except.ok.injEq, Prod.mk.injEq] at hr
    obtain ⟨rfl, rfl⟩ := hr
    exact ⟨⟨h.table, h.addrs⟩, rfl⟩

theorem evict (h : Holds xxh64 pool ps) (he : pool.evict xxh64 = .ok pool') :
    ∃ key, Holds xxh64 pool' (ps.filter fun q => q.pageId ≠ key) := by
  obtain ⟨⟨key, l⟩, -, he⟩ := bind_eq_ok.mp he
  simp only at he
  cases hg : pool.hashtable.getPage xxh64 key with
  | none => rw [hg] at he; cases he
  | some p =>
    rw [hg] at he
    obtain ⟨hp, rfl⟩ := h.getPage_eq_some.mp hg
    obtain ⟨t, ht, hh, -⟩ := h.removePage hp l
    simp only [ht, ok_bind, Except.ok.injEq] at he
    exact ⟨p.pageId, he ▸ hh⟩

theorem expandDirectory (h : Holds xxh64 pool ps) :
    Holds xxh64 { pool with hashtable := pool.hashtable.expandDirectory.2 } ps :=
  ⟨h.table.expandDirectory, h.addrs⟩

theorem makeRoom (h : Holds xxh64 pool ps) (he : pool.makeRoom xxh64 = .ok pool') :
    ∃ ps' : List (Page δ), ps'.Sublist ps ∧ Holds xxh64 pool' ps' := by
  simp only [BufferPool.makeRoom] at he
  split_ifs at he with h1 h2
  · cases he
    exact ⟨ps, List.Sublist.refl _, h.expandDirectory⟩
  · obtain ⟨key, hk⟩ := h.expandDirectory.evict he
    exact ⟨_, List.filter_sublist, hk⟩
  · cases he
    exact ⟨ps, List.Sublist.refl _, h⟩

theorem insert (h : Holds xxh64 pool ps) {pageId : String} {data : δ}
    (hf : ∀ p ∈ ps, p.pageId ≠ pageId) (hi : pool.insert xxh64 pageId data = .ok pool') :
    ∃ a, ∃ ps' : List (Page δ), ps'.Sublist ps ∧ Holds xxh64 pool' (⟨a, pageId, data⟩ :: ps') := by
  obtain ⟨pool₁, h₁, hi⟩ := bind_eq_ok.mp hi
  obtain ⟨ps', hs, hh⟩ := h.makeRoom h₁
  obtain ⟨t, ht, hh', -⟩ := hh.insertPage data (fun p hp => hf p (hs.subset hp))
    (pool₁.evictionPolicy.insert pageId)
  simp only [ht, ok_bind, Except.ok.injEq] at hi
  exact ⟨_, ps', hs, hi ▸ hh'⟩

theorem remove (h : Holds xxh64 pool ps) {pageId : String}
    (hr : pool.remove xxh64 pageId = .ok pool') :
    Holds xxh64 pool' (ps.filter fun q => q.pageId ≠ pageId) := by
  rw [BufferPool.remove] at hr
  cases hg : pool.hashtable.getPage xxh64 pageId with
  | none =>
    rw [hg] at hr
    cases hr
    have hself : ps.filter (fun q => q.pageId ≠ pageId) = ps := by
      rw [List.filter_eq_self]
      intro q hq
      simpa using h.getPage_eq_none.mp hg q hq
    rwa [hself]
  | some p =>
    rw [hg] at hr
    obtain ⟨hp, rfl⟩ := h.getPage_eq_some.mp hg
    obtain ⟨t, ht, hr⟩ := bind_eq_ok.mp hr
    obtain ⟨l, -, hr⟩ := bind_eq_ok.mp hr
    obtain ⟨t', ht', hh, -⟩ := h.removePage hp l
    rw [ht'] at ht
    cases ht
    cases hr
    exact hh

end Holds

end BufferPool

end MiniKvs
