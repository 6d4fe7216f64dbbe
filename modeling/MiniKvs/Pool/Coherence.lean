import MiniKvs.Pool.LockStep

/-! The buffer pool as a cache of pages that live elsewhere. `Current id data`
says that `data` is what page `id` holds now; it stays true of all pages held,
whatever the LRU list is like. A pool whose list is intact (`Steady`) also serves
every call. -/

namespace MiniKvs

open Lib

namespace BufferPool

variable {δ : Type} {xxh64 : String → UInt64} {Current : String → δ → Prop}
  {pool pool' : BufferPool δ}

/-- All pages held are current. -/
def Coherent (xxh64 : String → UInt64) (Current : String → δ → Prop) (pool : BufferPool δ) : Prop :=
  ∃ ps, Holds xxh64 pool ps ∧ ∀ p ∈ ps, Current p.pageId p.data

/-- Ask for pages one after the other and put in those that are not held. -/
def serve (xxh64 : String → UInt64) : List (String × δ) → BufferPool δ → Outcome (BufferPool δ)
  | [], pool => .ok pool
  | (id, data) :: pages, pool => do
    let (found, pool) ← pool.get xxh64 id
    match found with
    | some _ => serve xxh64 pages pool
    | none =>
      let pool ← pool.insert xxh64 id data
      serve xxh64 pages pool

def removeAll (xxh64 : String → UInt64) (ids : List String) (pool : BufferPool δ) :
    Outcome (BufferPool δ) := ids.foldlM (fun pool id => pool.remove xxh64 id) pool

/-- Table and list are in step with some cache. -/
def Steady (xxh64 : String → UInt64) (pool : BufferPool δ) : Prop :=
  ∃ maxDepth c, InStep xxh64 maxDepth pool c

namespace Coherent

theorem new {minSize maxSize : ℕ} (hle : minSize ≤ maxSize) (hmax : maxSize < 2147483648) :
    Coherent xxh64 Current (new minSize maxSize) :=
  ⟨[], new_holds hle hmax, by simp⟩

theorem mono (h : Coherent xxh64 Current pool) {Current' : String → δ → Prop}
    (hc : ∀ id data, Current id data → Current' id data) : Coherent xxh64 Current' pool := by
  obtain ⟨ps, hh, hp⟩ := h
  exact ⟨ps, hh, fun p hm => hc _ _ (hp p hm)⟩

/-- A page that is found is current. -/
theorem get (h : Coherent xxh64 Current pool) {id : String} {r : Option δ}
    (hg : pool.get xxh64 id = .ok (r, pool')) :
    Coherent xxh64 Current pool' ∧ ∀ data, r = some data → Current id data := by
  obtain ⟨ps, hh, hp⟩ := h
  obtain ⟨hh', hr⟩ := hh.get hg
  refine ⟨⟨ps, hh', hp⟩, fun data hd => ?_⟩
  rw [hr, Option.map_eq_some_iff] at hd
  obtain ⟨p, hf, rfl⟩ := hd
  have hid : p.pageId = id := by simpa using List.find?_some hf
  exact hid ▸ hp p (List.mem_of_find?_eq_some hf)

/-- A page that was asked for in vain may be put in. -/
theorem insert (h : Coherent xxh64 Current pool) {id : String} {data : δ}
    {pool₁ : BufferPool δ} (hg : pool.get xxh64 id = .ok (none, pool₁)) (hc : Current id data)
    (hi : pool₁.insert xxh64 id data = .ok pool') : Coherent xxh64 Current pool' := by
  obtain ⟨ps, hh, hp⟩ := h
  obtain ⟨hh', hr⟩ := hh.get hg
  have hnone : ∀ p ∈ ps, p.pageId ≠ id := by
    rw [eq_comm, Option.map_eq_none_iff, List.find?_eq_none] at hr
    simpa using hr
  obtain ⟨a, ps', hsub, hin⟩ := hh'.insert hnone hi
  refine ⟨_, hin, fun p hm => ?_⟩
  rcases List.mem_cons.mp hm with rfl | hm
  · exact hc
  · exact hp p (hsub.subset hm)

theorem serve {pages : List (String × δ)} (h : Coherent xxh64 Current pool)
    (hp : ∀ x ∈ pages, Current x.1 x.2) (hs : pool.serve xxh64 pages = .ok pool') :
    Coherent xxh64 Current pool' := by
  induction pages generalizing pool with
  | nil => cases hs; exact h
  | cons x pages ih =>
    obtain ⟨⟨found, pool₁⟩, hg, hs⟩ := bind_eq_ok.mp hs
    have hp' : ∀ y ∈ pages, Current y.1 y.2 := fun y hy => hp y (List.mem_cons_of_mem _ hy)
    cases found with
    | some data => exact ih (h.get hg).1 hp' hs
    | none =>
      obtain ⟨pool₂, hi, hs⟩ := bind_eq_ok.mp hs
      exact ih (h.insert hg (hp x (by simp)) hi) hp' hs

theorem remove (h : Coherent xxh64 Current pool) {id : String}
    (hr : pool.remove xxh64 id = .ok pool') :
    Coherent xxh64 (fun id' data => id' ≠ id ∧ Current id' data) pool' := by
  obtain ⟨ps, hh, hp⟩ := h
  refine ⟨_, hh.remove hr, fun p hm => ?_⟩
  obtain ⟨hm, hne⟩ := List.mem_filter.mp hm
  exact ⟨by simpa using hne, hp p hm⟩

theorem removeAll {ids : List String} (h : Coherent xxh64 Current pool)
    (hr : pool.removeAll xxh64 ids = .ok pool') :
    Coherent xxh64 (fun id data => id ∉ ids ∧ Current id data) pool' := by
  induction ids generalizing pool Current with
  | nil =>
    cases hr
    exact h.mono fun _ _ hc => ⟨List.not_mem_nil, hc⟩
  | cons id ids ih =>
    obtain ⟨pool₁, h₁, hr⟩ := bind_eq_ok.mp hr
    refine (ih (h.remove h₁) hr).mono fun id' data hc => ⟨?_, hc.2.2⟩
    rw [List.mem_cons, not_or]
    exact ⟨hc.2.1, hc.1⟩

end Coherent

namespace Steady

theorem new {minSize maxSize : ℕ} (hle : minSize ≤ maxSize) (hmax : maxSize < 2147483648) :
    Steady xxh64 (new minSize maxSize : BufferPool δ) := ⟨_, _, new_inStep hle hmax⟩

theorem get (h : Steady xxh64 pool) (id : String) :
    ∃ r pool', pool.get xxh64 id = .ok (r, pool') ∧ Steady xxh64 pool' := by
  obtain ⟨maxDepth, c, h⟩ := h
  obtain ⟨pool', hg, h'⟩ := h.get id
  exact ⟨_, pool', hg, maxDepth, _, h'⟩

/-- Room can be made for a page that was asked for in vain. -/
theorem insert (h : Steady xxh64 pool) {id : String} {pool₁ : BufferPool δ}
    (hg : pool.get xxh64 id = .ok (none, pool₁)) (data : δ) :
    ∃ pool', pool₁.insert xxh64 id data = .ok pool' ∧ Steady xxh64 pool' := by
  obtain ⟨maxDepth, c, h⟩ := h
  obtain ⟨pool₂, hg', h'⟩ := h.get id
  rw [hg] at hg'
  simp only [Except.ok.injEq, Prod.mk.injEq] at hg'
  obtain ⟨hnone, rfl⟩ := hg'
  have hf : c.find id = none := Option.map_eq_none_iff.mp hnone.symm
  rw [Cache.get, hf] at h'
  have hid : id ∉ c.ids := by
    intro hm
    obtain ⟨x, hx, hxid⟩ := List.mem_map.mp hm
    rw [h.find_eq_some.mpr ⟨hx, hxid⟩] at hf
    cases hf
  obtain ⟨pool', hi, h''⟩ := h'.insert hid data
  exact ⟨pool', hi, maxDepth, _, h''⟩

theorem serve (h : Steady xxh64 pool) (pages : List (String × δ)) :
    ∃ pool', pool.serve xxh64 pages = .ok pool' ∧ Steady xxh64 pool' := by
  induction pages generalizing pool with
  | nil => exact ⟨pool, rfl, h⟩
  | cons x pages ih =>
    obtain ⟨found, pool₁, hg, h₁⟩ := h.get x.1
    cases found with
    | some data =>
      obtain ⟨pool', hs, h'⟩ := ih h₁
      exact ⟨pool', by simp only [BufferPool.serve, hg, ok_bind, hs], h'⟩
    | none =>
      obtain ⟨pool₂, hi, h₂⟩ := h.insert hg x.2
      obtain ⟨pool', hs, h'⟩ := ih h₂
      exact ⟨pool', by simp only [BufferPool.serve, hg, ok_bind, hi, hs], h'⟩

theorem of_serve {pages : List (String × δ)} (h : Steady xxh64 pool)
    (hs : pool.serve xxh64 pages = .ok pool') : Steady xxh64 pool' := by
  obtain ⟨pool₁, hs₁, h₁⟩ := h.serve pages
  exact Except.ok.inj (hs.symm.trans hs₁) ▸ h₁

/-- After a removal that leaves the list intact no other page has become a stale front. -/
theorem remove (h : Steady xxh64 pool) {id : String} (hf : ¬ pool.evictionPolicy.StaleFront id) :
    ∃ pool', pool.remove xxh64 id = .ok pool' ∧ Steady xxh64 pool' ∧
      ∀ id', pool'.evictionPolicy.StaleFront id' → pool.evictionPolicy.StaleFront id' := by
  obtain ⟨maxDepth, c, h⟩ := h
  obtain ⟨pool', hr, h', hs⟩ := h.remove hf
  exact ⟨pool', hr, ⟨maxDepth, _, h'⟩, hs⟩

theorem removeAll {ids : List String} (h : Steady xxh64 pool)
    (hf : ∀ id ∈ ids, ¬ pool.evictionPolicy.StaleFront id) :
    ∃ pool', pool.removeAll xxh64 ids = .ok pool' ∧ Steady xxh64 pool' ∧
      ∀ id', pool'.evictionPolicy.StaleFront id' → pool.evictionPolicy.StaleFront id' := by
  induction ids generalizing pool with
  | nil => exact ⟨pool, rfl, h, fun _ hs => hs⟩
  | cons id ids ih =>
    obtain ⟨pool₁, hr, h₁, hs₁⟩ := h.remove (hf id (by simp))
    obtain ⟨pool', hr', h', hs'⟩ :=
      ih h₁ fun id' hid hst => hf id' (List.mem_cons_of_mem _ hid) (hs₁ id' hst)
    exact ⟨pool', bind_eq_ok.mpr ⟨pool₁, hr, hr'⟩, h', fun id' hst => hs₁ id' (hs' id' hst)⟩

/-- A page whose node is a stale front is held. -/
theorem staleFront_current (h : Steady xxh64 pool) (hc : Coherent xxh64 Current pool)
    {id : String} (hf : pool.evictionPolicy.StaleFront id) : ∃ data, Current id data := by
  obtain ⟨maxDepth, c, h⟩ := h
  obtain ⟨ps, hh, hp⟩ := hc
  obtain ⟨p, ns, hl, he, -⟩ := h.order
  obtain ⟨a, ns', rfl, -⟩ := hl.exists_front hf
  have hid : id ∈ c.ids := by rw [← he]; simp
  obtain ⟨x, hx, rfl⟩ := List.mem_map.mp hid
  have hg := h.getPage x.1
  rw [h.find_eq_some.mpr ⟨hx, rfl⟩, Option.map_eq_some_iff] at hg
  obtain ⟨q, hq, -⟩ := hg
  obtain ⟨hm, hqid⟩ := hh.getPage_eq_some.mp hq
  exact ⟨q.data, hqid ▸ hp q hm⟩

end Steady

end BufferPool

end MiniKvs
