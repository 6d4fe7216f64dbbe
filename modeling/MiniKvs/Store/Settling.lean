import MiniKvs.Lib.Counter
import MiniKvs.Store.KVStore

/-! The rounds of `update_levels` on levels that were at rest. At rest a level has
one SST, named after the level, or none; a new SST settles in the first level that
is free, and every level on the way gives its SST up to a compaction. -/

namespace MiniKvs.Level

open Lib

variable (dbPath : String)

/-- The levels from `c` on, at rest; `bits` tells which have an SST. -/
def levelsOf : ℕ → List Bool → List Level
  | _, [] => []
  | c, b :: bits => ⟨if b then [sstPath dbPath (2 * c)] else []⟩ :: levelsOf (c + 1) bits

/-- The levels when an SST has come to level `c`, beside the one that may be there. -/
def stage (c : ℕ) (b : Bool) (bits : List Bool) : List Level :=
  List.replicate c ⟨[]⟩ ++ ⟨(if b then [sstPath dbPath (2 * c)] else []) ++
    [sstPath dbPath (2 * c + b.toNat)]⟩ :: levelsOf dbPath (c + 1) bits

@[simp] theorem length_levelsOf (c : ℕ) (bits : List Bool) :
    (levelsOf dbPath c bits).length = bits.length := by
  induction bits generalizing c with
  | nil => rfl
  | cons b bits ih => rw [levelsOf, List.length_cons, ih, List.length_cons]

theorem length_stage (c : ℕ) (b : Bool) (bits : List Bool) :
    (stage dbPath c b bits).length = c + (bits.length + 1) := by
  rw [stage, List.length_append, List.length_replicate, List.length_cons, length_levelsOf]

/-- The levels with one more on the way down, which may be a new one. -/
theorem levelsOf_add (c : ℕ) (bits : List Bool) :
    (if bits = [] then addNewLevel (levelsOf dbPath c bits) else levelsOf dbPath c bits) =
      levelsOf dbPath c (bits.headD false :: bits.tail) := by
  cases bits <;> rfl

theorem getElem?_stage (c : ℕ) (b : Bool) (bits : List Bool) : (stage dbPath c b bits)[c]? =
    some ⟨(if b then [sstPath dbPath (2 * c)] else []) ++ [sstPath dbPath (2 * c + b.toNat)]⟩ := by
  rw [stage, List.getElem?_append_right (by rw [List.length_replicate]), List.length_replicate,
    Nat.sub_self, List.getElem?_cons_zero]

/-- A free level takes the SST in. -/
theorem stage_false (c : ℕ) (bits : List Bool) : stage dbPath c false bits =
    levelsOf dbPath 0 (List.replicate c false ++ true :: bits) := by
  have hpre : ∀ n c, levelsOf dbPath c (List.replicate n false ++ true :: bits) =
      List.replicate n ⟨[]⟩ ++ levelsOf dbPath (c + n) (true :: bits) := by
    intro n
    induction n with
    | zero => intro c; rfl
    | succ n ih =>
      intro c
      rw [List.replicate_succ, List.cons_append, levelsOf, ih, Nat.add_right_comm]
      rfl
  rw [hpre, Nat.zero_add]
  rfl

theorem modify_append_cons {α : Type} (f : α → α) (xs : List α) (y : α) (ys : List α) :
    (xs ++ y :: ys).modify xs.length f = xs ++ f y :: ys := by
  induction xs with
  | nil => rfl
  | cons x xs ih => rw [List.cons_append, List.length_cons, List.modify_succ_cons, ih]; rfl

theorem set_append_cons {α : Type} (xs : List α) (y z : α) (ys : List α) :
    (xs ++ y :: ys).set xs.length z = xs ++ z :: ys := by
  induction xs with
  | nil => rfl
  | cons x xs ih => rw [List.cons_append, List.length_cons, List.set_cons_succ, ih]; rfl

/-- The levels that a compaction of level `c` sees, the next one added if need be. -/
def compacting (c : ℕ) (bits : List Bool) : List Level :=
  List.replicate c ⟨[]⟩ ++ ⟨[sstPath dbPath (2 * c), sstPath dbPath (2 * c + 1)]⟩ ::
    levelsOf dbPath (c + 1) (bits.headD false :: bits.tail)

/-- The path that a compaction of level `c` writes to. -/
def compactPath (c : ℕ) (bits : List Bool) : String :=
  sstPath dbPath (2 * (c + 1) + (bits.headD false).toNat)

def compactEvent (c : ℕ) (bits : List Bool) : Event :=
  .compact (compacting dbPath c bits) c (compactPath dbPath c bits) bits.isEmpty

/-- The compactions that an SST sets off which has come to level `c`. -/
def compactEvents : ℕ → List Bool → List Event
  | c, true :: bits => compactEvent dbPath c bits :: compactEvents (c + 1) bits
  | _, _ => []

def flushEvents (bits : List Bool) : List Event :=
  .flush (levelsOf dbPath 0 bits) (sstPath dbPath (bits.headD false).toNat) ::
    compactEvents dbPath 0 bits

/-- All calls of the first `k` flushes. -/
def logOf (k : ℕ) : List Event := (List.range k).flatMap fun n => flushEvents dbPath n.bits

/-- The last level gets a new one behind it. -/
theorem stage_true (c : ℕ) (bits : List Bool) :
    (if c ≥ (stage dbPath c true bits).length - 1
      then addNewLevel (stage dbPath c true bits) else stage dbPath c true bits) =
    compacting dbPath c bits := by
  rw [length_stage, compacting, ← levelsOf_add]
  cases bits with
  | nil => simp [stage, addNewLevel]
  | cons b bits => simp [stage]

/-- The deeper level has an SST or none, which decides the name of the new one. -/
theorem sstNum_compacting (c : ℕ) (bits : List Bool) :
    (c + 1) * sizeRatio + ((compacting dbPath c bits).getD (c + 1) ⟨[]⟩).sstList.length =
      2 * (c + 1) + (bits.headD false).toNat := by
  rw [compacting, List.getD_eq_getElem?_getD,
    List.getElem?_append_right (by rw [List.length_replicate]; omega), List.length_replicate,
    show c + 1 - c = 0 + 1 by omega, List.getElem?_cons_succ, levelsOf, List.getElem?_cons_zero,
    sizeRatio, Nat.mul_comm]
  cases bits.headD false <;> rfl

/-- The new SST is moved on, and the level left empty. -/
theorem move_compacting (c : ℕ) (bits : List Bool) :
    ((compacting dbPath c bits).modify (c + 1) fun l =>
      ⟨l.sstList ++ [compactPath dbPath c bits].take 1⟩).set c ⟨[]⟩ =
    stage dbPath (c + 1) (bits.headD false) bits.tail := by
  have hmodify := modify_append_cons
    (fun l : Level => ⟨l.sstList ++ [compactPath dbPath c bits].take 1⟩)
    (List.replicate c ⟨[]⟩ ++ [⟨[sstPath dbPath (2 * c), sstPath dbPath (2 * c + 1)]⟩])
    ⟨if bits.headD false then [sstPath dbPath (2 * (c + 1))] else []⟩
    (levelsOf dbPath (c + 1 + 1) bits.tail)
  have hset := set_append_cons (List.replicate c (⟨[]⟩ : Level))
    ⟨[sstPath dbPath (2 * c), sstPath dbPath (2 * c + 1)]⟩ ⟨[]⟩
    (⟨(if bits.headD false then [sstPath dbPath (2 * (c + 1))] else []) ++
      [compactPath dbPath c bits]⟩ :: levelsOf dbPath (c + 1 + 1) bits.tail)
  simp only [List.length_append, List.length_replicate, List.length_singleton,
    List.append_assoc, List.singleton_append] at hmodify hset
  rw [compacting, levelsOf, hmodify]
  simp only [List.take_succ_cons, List.take_zero]
  rw [hset, stage, List.replicate_succ', List.append_assoc]
  rfl

/-- The directory after a compaction of two SSTs. -/
def compactFiles (xxh64 : XXH64) (oldPath newPath outputPath : String) (isLastLevel : Bool)
    (disk : Disk) : Outcome Disk := do
  let oldSst ← Disk.read (disk.set outputPath .empty) oldPath
  let newSst ← Disk.read (disk.set outputPath .empty) newPath
  let output ← BTreeNode.mergeSsts xxh64 oldSst newSst isLastLevel
  .ok (((OrdMap.set (disk.set outputPath .empty) outputPath output).erase oldPath).erase newPath)

theorem compact_eq (xxh64 : XXH64) (oldPath newPath : String) (sstNum : ℕ) (isLastLevel : Bool)
    (before : ℕ) (disk : Disk) :
    compact (.pages xxh64) dbPath ⟨[oldPath, newPath]⟩ sstNum isLastLevel before disk =
      (compactFiles xxh64 oldPath newPath (sstPath dbPath sstNum) isLastLevel disk).map fun disk =>
        (⟨[sstPath dbPath sstNum]⟩, disk) := by
  simp only [compact, compactFiles, Storage.pages]
  cases Disk.read (disk.set (sstPath dbPath sstNum) .empty) oldPath with
  | error e => rfl
  | ok old =>
    cases Disk.read (disk.set (sstPath dbPath sstNum) .empty) newPath with
    | error e => rfl
    | ok new =>
      simp only [ok_bind]
      cases BTreeNode.mergeSsts xxh64 old new isLastLevel <;> rfl

variable {dbPath} {xxh64 : XXH64} {fuel c : ℕ} {bits : List Bool} {tree : Tree}

theorem compactLevels_false (h : tree.levels = stage dbPath c false bits) :
    compactLevels (.pages xxh64) dbPath (fuel + 1) c tree = .ok tree := by
  rw [compactLevels, h, getElem?_stage]
  rfl

theorem compactLevels_true (h : tree.levels = stage dbPath c true bits) :
    compactLevels (.pages xxh64) dbPath (fuel + 1) c tree = (do
      let bufferPool ← removePages (.pages xxh64) tree.disk
        [sstPath dbPath (2 * c), sstPath dbPath (2 * c + 1)] tree.bufferPool
      let disk ← compactFiles xxh64 (sstPath dbPath (2 * c)) (sstPath dbPath (2 * c + 1))
        (compactPath dbPath c bits) bits.isEmpty tree.disk
      compactLevels (.pages xxh64) dbPath fuel (c + 1)
        { levels := stage dbPath (c + 1) (bits.headD false) bits.tail
          bufferPool := bufferPool
          disk := disk
          log := tree.log ++ [compactEvent dbPath c bits] }) := by
  have hlast : (decide (c = (stage dbPath c true bits).length - 1) : Bool) = bits.isEmpty := by
    rw [length_stage]
    cases bits with
    | nil => simp
    | cons b bits => simp
  have htwo : (⟨(if true then [sstPath dbPath (2 * c)] else []) ++
      [sstPath dbPath (2 * c + true.toNat)]⟩ : Level) =
      ⟨[sstPath dbPath (2 * c), sstPath dbPath (2 * c + 1)]⟩ := rfl
  rw [compactLevels, h, getElem?_stage, htwo]
  simp only [hlast, stage_true, sstNum_compacting, compact_eq]
  rw [if_pos (show [sstPath dbPath (2 * c), sstPath dbPath (2 * c + 1)].length ≥ sizeRatio from
    le_rfl)]
  congr 1
  funext bufferPool
  rw [compactPath]
  cases compactFiles xxh64 (sstPath dbPath (2 * c)) (sstPath dbPath (2 * c + 1))
    (sstPath dbPath (2 * (c + 1) + (bits.headD false).toNat)) bits.isEmpty tree.disk with
  | error e => rfl
  | ok disk =>
    have hmove := move_compacting dbPath c bits
    rw [compactPath] at hmove
    simp only [Except.map, ok_bind, hmove]
    rfl

theorem updateLevels_eq (h : tree.levels = levelsOf dbPath 0 bits) :
    updateLevels (.pages xxh64) dbPath (sstPath dbPath (bits.headD false).toNat) tree =
      compactLevels (.pages xxh64) dbPath (bits.tail.length + 2) 0
        { tree with levels := stage dbPath 0 (bits.headD false) bits.tail } := by
  have hadd : (if (levelsOf dbPath 0 bits).length = 0 then addNewLevel (levelsOf dbPath 0 bits)
      else levelsOf dbPath 0 bits) = levelsOf dbPath 0 (bits.headD false :: bits.tail) := by
    rw [← levelsOf_add]
    cases bits <;> rfl
  rw [updateLevels, h, hadd]
  simp only [List.length_modify, length_levelsOf, List.length_cons]
  congr 2
  rw [stage]
  simp [levelsOf, push]

/-- The new SST is named after the first level, with the odd number if that has one. -/
theorem sstNum_levelsOf (bits : List Bool) :
    (if (levelsOf dbPath 0 bits).length > 0 ∧
      ((levelsOf dbPath 0 bits).getD 0 ⟨[]⟩).sstList.length > 0 then 1 else 0) =
      (bits.headD false).toNat := by
  cases bits with
  | nil => rfl
  | cons b bits => cases b <;> simp [levelsOf]

end MiniKvs.Level
