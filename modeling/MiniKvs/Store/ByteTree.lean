import MiniKvs.Sst.ByteBuild
import MiniKvs.Sst.CachedBytes
import MiniKvs.Store.Level

/-! The LSM tree over files and pool of bytes. A flushed file settles in the levels as it
does over page files, and leaves bytes that represent the same pages. -/

namespace MiniKvs

open Lib SstFiles BufferPool Level

/-- The regular files of the directory, as bytes. -/
abbrev ByteDisk := Disk (List UInt8)

abbrev ByteTree := Tree (List UInt8) (List UInt8)

/-- `before` is what the memory of each filter held before the filter was made. -/
def Storage.bytes (xxh64 : XXH64) (before : ℕ → ℕ → UInt8) : Storage (List UInt8) where
  hash := xxh64.page
  empty := []
  numPages bytes := (fileOf bytes).numPages
  merge n := BTreeNode.mergeBytes xxh64 (before n)

namespace ByteTree

/-! ### Over page files -/

theorem find_set_eq {κ ν : Type} [LinearOrder κ] (m : OrdMap κ ν) (k : κ) (v : ν) :
    (m.set k v).find = Function.update m.find k (some v) := by
  funext k'
  rw [OrdMap.find_set, Function.update_apply]
  exact if_congr eq_comm rfl rfl

variable {xxh64 : XXH64} {before : ℕ → ℕ → UInt8} {dbPath : String} {disk : ByteDisk}
  {disk' : Disk}

theorem read_eq_load {φ : Type} (disk : Disk φ) (path : String) :
    disk.read path = load disk.find path := by
  unfold Disk.read load
  cases disk.find path <;> rfl

theorem represented_empty : Represented (OrdMap.empty : ByteDisk).find (OrdMap.empty : Disk).find :=
  fun _ => trivial

theorem represented_set (h : Represented disk.find disk'.find) {bytes : List UInt8} {file : File}
    (hr : Represents bytes file) (hf : file.FilterFirst) (path : String) :
    Represented (disk.set path bytes).find (disk'.set path file).find := by
  rw [find_set_eq, find_set_eq]
  exact h.update path hr hf

theorem represented_erase (h : Represented disk.find disk'.find) (path : String) :
    Represented (disk.erase path).find (disk'.erase path).find := by
  intro p
  rw [OrdMap.find_erase, OrdMap.find_erase]
  split_ifs
  · trivial
  · exact h p

theorem represented_eraseAll (ssts : List String) : ∀ {disk : ByteDisk} {disk' : Disk},
    Represented disk.find disk'.find →
      Represented (ssts.foldl (fun disk sst => disk.erase sst) disk).find
        (ssts.foldl (fun disk sst => disk.erase sst) disk').find := by
  induction ssts with
  | nil => exact fun h => h
  | cons sst ssts ih => exact fun h => ih (represented_erase h sst)

/-- Both directories list the same paths. -/
theorem represented_keys (h : Represented disk.find disk'.find) : disk.keys = disk'.keys := by
  refine disk.keys_sorted.eq_of_mem_iff disk'.keys_sorted fun path => ?_
  rw [OrdMap.mem_keys, OrdMap.mem_keys]
  have hp := h path
  cases hd : disk.find path <;> cases hd' : disk'.find path <;> rw [hd, hd'] at hp
  · exact Iff.rfl
  · exact hp.elim
  · exact hp.elim
  · exact Iff.rfl

theorem compact_matches (h : Represented disk.find disk'.find) (level : Level) (sstNum : ℕ)
    (isLastLevel : Bool) (n : ℕ) :
    Matches (fun x y => x.1 = y.1 ∧ Represented x.2.find y.2.find)
      (compact (.bytes xxh64 before) dbPath level sstNum isLastLevel n disk)
      (compact (.pages xxh64) dbPath level sstNum isLastLevel n disk') := by
  obtain ⟨ssts⟩ := level
  match ssts with
  | [] => exact .error _
  | [_] => exact .error _
  | old :: new :: rest =>
    simp only [compact, Storage.bytes, Storage.pages, read_eq_load]
    have hold := h.load_emptied (sstPath dbPath sstNum) old
    have hnew := h.load_emptied (sstPath dbPath sstNum) new
    rw [← find_set_eq, ← find_set_eq] at hold hnew
    refine hold.bind fun oldSst oldSst' _ _ ho => hnew.bind fun newSst newSst' _ _ hn => ?_
    refine (BTreeNode.mergeBytes_matches ho hn isLastLevel).bind fun output output' _ hw hr => ?_
    have hset : Represented ((disk.set (sstPath dbPath sstNum) []).set (sstPath dbPath sstNum)
        output).find ((disk'.set (sstPath dbPath sstNum) .empty).set (sstPath dbPath sstNum)
        output').find := by
      simp only [find_set_eq, Function.update_idem]
      exact h.update _ hr (BTreeNode.merge_filterFirst hw)
    exact .ok ⟨rfl, represented_eraseAll (old :: new :: rest) hset⟩

theorem removePages_matches (h : Represented disk.find disk'.find) (ssts : List String)
    {pool : BufferPool (List UInt8)} {pool' : BufferPool PageData}
    (hp : Matching xxh64 pool pool') : Matches (Matching xxh64)
      (removePages (.bytes xxh64 before) disk ssts pool)
      (removePages (.pages xxh64) disk' ssts pool') := by
  induction ssts generalizing pool pool' with
  | nil => exact .ok hp
  | cons sst ssts ih =>
    rw [removePages, removePages, read_eq_load, read_eq_load]
    refine (h.load sst).bind fun bytes file _ _ hb => ?_
    simp only [Storage.bytes, Storage.pages, (hb.1.agrees hb.2).numPages]
    exact (Matches.foldlM (fun i _ _ hm => hm.remove (Page.generatePageId sst i)) _ hp).bind
      fun _ _ _ _ hm => ih hm

/-- The same levels and log, with the same pages in the pool and in the files. -/
structure Stands (xxh64 : XXH64) (tree : ByteTree) (tree' : Tree) : Prop where
  levels : tree.levels = tree'.levels
  bufferPool : Matching xxh64 tree.bufferPool tree'.bufferPool
  disk : Represented tree.disk.find tree'.disk.find
  log : tree.log = tree'.log

theorem compactLevels_matches (fuel currentLevel : ℕ) {tree : ByteTree} {tree' : Tree}
    (h : Stands xxh64 tree tree') : Matches (Stands xxh64)
      (compactLevels (.bytes xxh64 before) dbPath fuel currentLevel tree)
      (compactLevels (.pages xxh64) dbPath fuel currentLevel tree') := by
  induction fuel generalizing currentLevel tree tree' with
  | zero => exact .error _
  | succ fuel ih =>
    rw [compactLevels, compactLevels, h.levels]
    cases tree'.levels[currentLevel]? with
    | none => exact .ok h
    | some level =>
      simp only [h.log]
      by_cases hfull : level.sstList.length ≥ sizeRatio
      · rw [if_pos hfull, if_pos hfull]
        refine (removePages_matches h.disk level.sstList h.bufferPool).bind
          fun pool pool' _ _ hp => ?_
        refine (compact_matches h.disk level _ _ _).bind fun x y _ _ hxy => ?_
        obtain ⟨level₁, disk⟩ := x
        obtain ⟨level₁', disk'⟩ := y
        obtain ⟨rfl : level₁ = level₁', hd⟩ := hxy
        exact ih _ ⟨rfl, hp, hd, rfl⟩
      · rw [if_neg hfull, if_neg hfull]
        exact .ok h

theorem updateLevels_matches (sst : String) {tree : ByteTree} {tree' : Tree}
    (h : Stands xxh64 tree tree') : Matches (Stands xxh64)
      (updateLevels (.bytes xxh64 before) dbPath sst tree)
      (updateLevels (.pages xxh64) dbPath sst tree') := by
  rw [updateLevels, updateLevels, h.levels]
  exact compactLevels_matches _ 0 ⟨rfl, h.bufferPool, h.disk, h.log⟩

end ByteTree

end MiniKvs
