import MiniKvs.Utils
import Mathlib.Data.List.GetD

/-! The Bloom filter of an SST (`bloom_filter.cpp`). Only the first `totalBits`
bytes of the bitmap are ever set or read; the others are not modelled. -/

namespace MiniKvs

/-- XXH64, of a page id with seed 0 and of the bytes of a key with a seed. -/
structure XXH64 where
  page : String → UInt64
  key : Uint32 → ℕ → UInt64

structure BloomFilter where
  totalBits : ℕ
  hashFunctions : ℕ
  bitmap : List Bool
  deriving DecidableEq

namespace BloomFilter

def maxBitmapSize : ℕ := 4088

/-- `std::round(std::log(2) * m)` -/
def optimalHashFunctions (m : ℕ) : ℕ :=
  (2 * m * 6931471805599453 + 10000000000000000) / 20000000000000000

def new (m numEntries : ℕ) : BloomFilter :=
  let totalBits := if m * numEntries ≥ maxBitmapSize then maxBitmapSize else m * numEntries
  { totalBits := totalBits
    hashFunctions := optimalHashFunctions m
    bitmap := List.replicate totalBits false }

variable (xxh64 : XXH64)

def hash (filter : BloomFilter) (key : Uint32) (seed : ℕ) : ℕ :=
  (xxh64.key key seed).toNat % filter.totalBits

def setBit (key : Uint32) (filter : BloomFilter) (seed : ℕ) : BloomFilter :=
  { filter with bitmap := filter.bitmap.set (filter.hash xxh64 key seed) true }

def insert (filter : BloomFilter) (key : Uint32) : BloomFilter :=
  (List.range filter.hashFunctions).foldl (setBit xxh64 key) filter

def get (filter : BloomFilter) (key : Uint32) : Bool :=
  (List.range filter.hashFunctions).all fun i =>
    filter.bitmap.getD (filter.hash xxh64 key i) false

/-! ### No false negatives -/

variable {xxh64} {filter filter' : BloomFilter} {key : Uint32}

/-- `filter'` has at least the bits of `filter`. -/
structure Extends (filter filter' : BloomFilter) : Prop where
  totalBits : filter'.totalBits = filter.totalBits
  hashFunctions : filter'.hashFunctions = filter.hashFunctions
  length : filter'.bitmap.length = filter.bitmap.length
  bits : ∀ j, filter.bitmap.getD j false = true → filter'.bitmap.getD j false = true

theorem Extends.refl (filter : BloomFilter) : Extends filter filter := ⟨rfl, rfl, rfl, fun _ h => h⟩

theorem Extends.trans {a b c : BloomFilter} (h : Extends a b) (h' : Extends b c) : Extends a c :=
  ⟨h'.totalBits.trans h.totalBits, h'.hashFunctions.trans h.hashFunctions,
    h'.length.trans h.length, fun j hj => h'.bits j (h.bits j hj)⟩

theorem Extends.get (h : Extends filter filter') (hg : filter.get xxh64 key = true) :
    filter'.get xxh64 key = true := by
  simp only [BloomFilter.get, List.all_eq_true, hash, h.hashFunctions, h.totalBits] at hg ⊢
  exact fun i hi => h.bits _ (hg i hi)

theorem setBit_extends (xxh64 : XXH64) (filter : BloomFilter) (key : Uint32) (seed : ℕ) :
    Extends filter (setBit xxh64 key filter seed) := by
  refine ⟨rfl, rfl, by simp [setBit], fun j hj => ?_⟩
  simp only [setBit, List.getD_eq_getElem?_getD, List.getElem?_set] at hj ⊢
  split_ifs with h1 h2
  · rfl
  · rw [List.getElem?_eq_none (by omega)] at hj
    simp at hj
  · exact hj

theorem foldl_setBit_extends (seeds : List ℕ) (filter : BloomFilter) (key : Uint32) :
    Extends filter (seeds.foldl (setBit xxh64 key) filter) := by
  induction seeds generalizing filter with
  | nil => exact Extends.refl _
  | cons i seeds ih => exact (setBit_extends xxh64 filter key i).trans (ih _)

theorem insert_extends (xxh64 : XXH64) (filter : BloomFilter) (key : Uint32) :
    Extends filter (filter.insert xxh64 key) := foldl_setBit_extends _ _ _

theorem foldl_setBit_bit {seeds : List ℕ} {i : ℕ} (hi : i ∈ seeds)
    (hlt : filter.hash xxh64 key i < filter.bitmap.length) :
    (seeds.foldl (setBit xxh64 key) filter).bitmap.getD (filter.hash xxh64 key i) false = true := by
  induction seeds generalizing filter with
  | nil => simp at hi
  | cons j seeds ih =>
    have hj := setBit_extends xxh64 filter key j
    have hh : (setBit xxh64 key filter j).hash xxh64 key i = filter.hash xxh64 key i := rfl
    rw [List.foldl_cons]
    rcases List.mem_cons.mp hi with rfl | hi
    · refine (foldl_setBit_extends seeds _ key).bits _ ?_
      simp [setBit, hlt]
    · rw [← hh, ← hj.length] at hlt
      have := ih hi hlt
      rwa [hh] at this

theorem get_insert (hpos : 0 < filter.totalBits) (hlen : filter.bitmap.length = filter.totalBits) :
    (filter.insert xxh64 key).get xxh64 key = true := by
  have he := insert_extends xxh64 filter key
  simp only [get, List.all_eq_true, hash, he.hashFunctions, he.totalBits]
  intro i hi
  exact foldl_setBit_bit hi (hlen ▸ Nat.mod_lt _ hpos)

theorem foldl_insert_extends (keys : List Uint32) (filter : BloomFilter) :
    Extends filter (keys.foldl (insert xxh64) filter) := by
  induction keys generalizing filter with
  | nil => exact Extends.refl _
  | cons k keys ih => exact (insert_extends xxh64 filter k).trans (ih _)

theorem get_foldl_insert (hpos : 0 < filter.totalBits)
    (hlen : filter.bitmap.length = filter.totalBits) {keys : List Uint32} (hk : key ∈ keys) :
    (keys.foldl (insert xxh64) filter).get xxh64 key = true := by
  induction keys generalizing filter with
  | nil => simp at hk
  | cons k keys ih =>
    have he := insert_extends xxh64 filter k
    rw [List.foldl_cons]
    rcases List.mem_cons.mp hk with rfl | hk
    · exact (foldl_insert_extends keys _).get (get_insert hpos hlen)
    · refine ih ?_ ?_ hk
      · rw [he.totalBits]; exact hpos
      · rw [he.length, he.totalBits]; exact hlen

/-- A filter made for at least one page answers `true` for every key put in. -/
theorem get_of_mem {numEntries : ℕ} (hn : 0 < numEntries) {keys : List Uint32} (hk : key ∈ keys) :
    (keys.foldl (insert xxh64) (new 5 numEntries)).get xxh64 key = true := by
  refine get_foldl_insert ?_ (List.length_replicate ..) hk
  change 0 < if 5 * numEntries ≥ 4088 then 4088 else 5 * numEntries
  split_ifs <;> omega

end BloomFilter

end MiniKvs
