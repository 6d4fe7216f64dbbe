import MiniKvs.Pool.Residency
import MiniKvs.Store.Agreement
import MiniKvs.Store.ReadCost

/-! Lookups that read no file. When the pages of some keys fit in the pool together, the
pool has them all once each key has been looked up, and from then on lookups of these keys
are served from memory, in whatever order and however often they come. -/

namespace MiniKvs

open Lib BufferPool

variable {xxh64 : XXH64} {sort : StdSort} {dbPath : String} {slots : List (Option Sst)}
  {w w' : World} {pool : BufferPool PageData}

namespace World

/-- The store with another pool. -/
def withPool (w : World) (pool : BufferPool PageData) : World :=
  { w with store := { w.store with bufferPool := pool } }

@[simp] theorem withPool_pool (w : World) (pool : BufferPool PageData) :
    (w.withPool pool).store.bufferPool = pool := rfl

@[simp] theorem pagesAsked_withPool (w : World) (pool : BufferPool PageData) (key : Uint32) :
    (w.withPool pool).pagesAsked xxh64 key = w.pagesAsked xxh64 key := rfl

/-- A lookup changes the pool alone. -/
theorem eq_withPool_of_get {key value : Uint32} (h : w.get xxh64 key = .ok (value, w')) :
    w' = w.withPool w'.store.bufferPool := by
  unfold get at h
  simp only at h
  split_ifs at h
  · cases h
    rfl
  · cases h
    rfl
  · obtain ⟨x, -, h⟩ := bind_eq_ok.mp h
    cases h
    rfl

end World

namespace AtRest

/-- A lookup whose pages the pool serves. -/
theorem get_of_serve (h : AtRest xxh64 dbPath slots w) {key : Uint32}
    (hs : w.store.bufferPool.serve xxh64.page (w.pagesAsked xxh64 key) = .ok pool) :
    ∃ r, World.step xxh64 sort (.get key) w = .ok (r, w.withPool pool) ∧
      AtRest xxh64 dbPath slots (w.withPool pool) := by
  rw [← h.get_eq_serve key] at hs
  obtain ⟨⟨value, w'⟩, hget, rfl⟩ := map_eq_ok.mp hs
  rw [← World.eq_withPool_of_get hget]
  exact ⟨_, map_eq_ok.mpr ⟨_, hget, rfl⟩, (h.get hget).2⟩

/-- Lookups one after the other are the serving of all their pages. -/
theorem gets_of_serve : ∀ {keys : List Uint32} {w : World}, AtRest xxh64 dbPath slots w →
    w.store.bufferPool.serve xxh64.page (keys.flatMap fun key => w.pagesAsked xxh64 key) =
      .ok pool →
    ∃ rs, Lib.run (World.step xxh64 sort) (keys.map .get) w = .ok (rs, w.withPool pool) ∧
      AtRest xxh64 dbPath slots (w.withPool pool) := by
  intro keys
  induction keys with
  | nil =>
    intro w h hs
    cases hs
    exact ⟨[], rfl, h⟩
  | cons key keys ih =>
    intro w h hs
    rw [List.flatMap_cons, serve_append] at hs
    obtain ⟨pool₁, hs₁, hs₂⟩ := bind_eq_ok.mp hs
    obtain ⟨r, hr, h₁⟩ := h.get_of_serve hs₁
    obtain ⟨rs, hrs, h'⟩ := ih h₁ (by simpa using hs₂)
    exact ⟨r :: rs, (run_cons_eq_ok _).mpr ⟨r, _, rs, hr, hrs, rfl⟩, h'⟩

end AtRest

/-- After a run of safe calls, take keys whose pages fit in the pool together. Once they have
been looked up, they can be looked up again and again without a page being put in. -/
theorem runCalls_workingSet (xxh64 : XXH64) (sort : StdSort) (config : Config) (dbPath : String)
    (calls : List Call) (hvalues : ∀ call ∈ calls, call.ValueOk)
    (hsafe : AlongTotal Snapshot.next (Snapshot.Safe dbPath) (.new config) calls)
    (hfront : Along (Call.step xxh64 sort) (fun w call => call.KeepsFront w) (.start config dbPath)
      calls) :
    ∃ rs w, runCalls xxh64 sort config dbPath calls = .ok (rs, w) ∧ ∀ keys : List Uint32,
      ((keys.flatMap fun key => w.pagesAsked xxh64 key).map Prod.fst).toFinset.card ≤
        room w.store.bufferPool.hashtable.maxDepth →
      ∃ rs₁ w₁, run (World.step xxh64 sort) (keys.map .get) w = .ok (rs₁, w₁) ∧
        ∀ again : List Uint32, (∀ key ∈ again, key ∈ keys) →
          ∃ rs₂ w₂, run (World.step xxh64 sort) (again.map .get) w₁ = .ok (rs₂, w₂) ∧
            w₂.store.bufferPool.hashtable = w₁.store.bufferPool.hashtable ∧
            w₂.store.bufferPool.allocated = w₁.store.bufferPool.allocated := by
  obtain ⟨rs, w, hrun, hmodels, -⟩ := runCalls_models hvalues hsafe hfront
  obtain ⟨slots, hslots, -⟩ := hmodels.slots
  obtain ⟨maxDepth, c, hin⟩ := hmodels.steady
  refine ⟨rs, w, hrun, fun keys hroom => ?_⟩
  rw [hin.maxDepth] at hroom
  obtain ⟨pool₁, c₁, hserve, hin₁, hheld⟩ := hin.serve_front hroom (Front.empty _)
    (Finset.empty_subset _) fun y hy => List.mem_toFinset.mpr (List.mem_map_of_mem hy)
  obtain ⟨rs₁, hrs₁, hslots₁⟩ := hslots.gets_of_serve hserve
  refine ⟨rs₁, _, hrs₁, fun again hagain => ?_⟩
  have hmem : ∀ y ∈ again.flatMap (fun key => w.pagesAsked xxh64 key), y.1 ∈ c₁.ids := by
    intro y hy
    obtain ⟨key, hkey, hy⟩ := List.mem_flatMap.mp hy
    have hy : y ∈ keys.flatMap fun key => w.pagesAsked xxh64 key :=
      List.mem_flatMap.mpr ⟨key, hagain key hkey, hy⟩
    exact hheld.mem (Finset.mem_union_left _ (List.mem_toFinset.mpr (List.mem_map_of_mem hy)))
  obtain ⟨pool₂, hserve₂, htable, hallocated⟩ := hin₁.serve_held hmem
  obtain ⟨rs₂, hrs₂, -⟩ := hslots₁.gets_of_serve hserve₂
  exact ⟨rs₂, _, hrs₂, htable, hallocated⟩

theorem runCalls_workingSet_two : ∃ w rs₁ w₁, run (World.step constHash .insertion)
    [.get 5, .get 6] w =
    .ok (rs₁, w₁) ∧ ∀ again : List Uint32, (∀ key ∈ again, key ∈ [5, 6]) →
      ∃ rs₂ w₂, run (World.step constHash .insertion) (again.map .get) w₁ = .ok (rs₂, w₂) ∧
        w₂.store.bufferPool.hashtable = w₁.store.bufferPool.hashtable ∧
        w₂.store.bufferPool.allocated = w₁.store.bufferPool.allocated := by
  obtain ⟨rs, w, hrun, h⟩ := runCalls_workingSet constHash .insertion largeConfig "/a"
    [.op (.put 5 7), .op (.put 6 8)] (by decide) (by decide +kernel) (by decide +kernel)
  have hrun' := eq_ok_okOr ([], World.start largeConfig "/a")
    (x := runCalls constHash .insertion largeConfig "/a" [.op (.put 5 7), .op (.put 6 8)])
    (by decide +kernel)
  obtain ⟨-, rfl⟩ := Prod.mk.inj (Except.ok.inj (hrun.symm.trans hrun'))
  obtain ⟨rs₁, w₁, hrun₁, hagain⟩ := h [5, 6] (by decide +kernel)
  exact ⟨_, rs₁, w₁, hrun₁, hagain⟩

end MiniKvs
