import MiniKvs.Lib.Machine
import MiniKvs.Memtable.AvlTree
import MiniKvs.Sst.BloomFilter

/-! B-tree nodes and the page files that hold them. A file position is an int
product, so it leaves the int range from page `2 ^ 19` on. -/

namespace MiniKvs

open Lib

structure BTreeNode where
  numKeys : ℕ
  /-- The slots written so far; the others are zero. -/
  entries : List Entry
  isLeaf : Bool
  fileOffset : ℕ
  totalNumberOfNodes : ℕ
  numOfLeafNodes : ℕ
  deriving DecidableEq

namespace BTreeNode

def maxKeys : ℕ := 508

def new : BTreeNode := ⟨0, [], false, 0, 0, 0⟩

def entry (node : BTreeNode) (i : ℕ) : Entry := node.entries.getD i ⟨0, 0⟩

/-- The largest key, `entries[num_keys - 1].key`. -/
def lastKey (node : BTreeNode) : Uint32 := (node.entry (node.numKeys - 1)).key

end BTreeNode

/-- What a page of an SST file holds. -/
inductive PageData
  | filter (f : BloomFilter)
  | node (n : BTreeNode)
  deriving DecidableEq

namespace PageData

def bytes : PageData → ℕ
  | .filter _ => 4096
  | .node _ => 4092

def asFilter : PageData → Outcome BloomFilter
  | .filter f => .ok f
  | .node _ => .error .badRead

def asNode : PageData → Outcome BTreeNode
  | .filter _ => .error .badRead
  | .node n => .ok n

end PageData

structure File where
  page : ℕ → Option PageData
  /-- `file_size`, in bytes. -/
  size : ℕ

namespace File

def empty : File := ⟨fun _ => none, 0⟩

/-- The position of a page, an int. -/
def position (offset : ℕ) : Outcome ℕ :=
  if Utils.pageSize * offset < 2147483648 then .ok (Utils.pageSize * offset)
  else .error .intOverflow

/-- The file after a page is written. -/
def put (file : File) (offset : ℕ) (data : PageData) : File :=
  { page := Function.update file.page offset (some data)
    size := max file.size (Utils.pageSize * offset + data.bytes) }

def write (file : File) (offset : ℕ) (data : PageData) : Outcome File := do
  let _ ← position offset
  .ok (file.put offset data)

/-- A page that was not written reads as zeros. -/
def readNode (file : File) (offset : ℕ) : Outcome BTreeNode := do
  let _ ← position offset
  match file.page offset with
  | none => .ok .new
  | some data => data.asNode

def readFilter (file : File) : Outcome BloomFilter :=
  match file.page 0 with
  | none => .error .badRead
  | some data => data.asFilter

/-- `ceil(file_size / PAGE_SIZE)` -/
def numPages (file : File) : ℕ := (file.size + (Utils.pageSize - 1)) / Utils.pageSize

theorem position_eq_ok {offset n : ℕ} :
    position offset = .ok n ↔ offset < 524288 ∧ n = 4096 * offset := by
  have hsize : Utils.pageSize = 4096 := rfl
  rw [position, hsize]
  by_cases h : 4096 * offset < 2147483648
  · rw [if_pos h, Except.ok.injEq]
    exact ⟨fun he => ⟨by omega, he.symm⟩, fun he => he.2.symm⟩
  · rw [if_neg h]
    exact ⟨fun he => (by cases he), fun he => absurd he.1 (by omega)⟩

@[simp] theorem put_page_self (file : File) (offset : ℕ) (data : PageData) :
    (file.put offset data).page offset = some data := Function.update_self ..

theorem put_page_of_ne (file : File) {offset o : ℕ} (data : PageData) (h : o ≠ offset) :
    (file.put offset data).page o = file.page o := Function.update_of_ne h ..

theorem put_size (file : File) (offset : ℕ) (data : PageData) :
    (file.put offset data).size = max file.size (4096 * offset + data.bytes) := rfl

theorem put_comm (file : File) {offset o : ℕ} (data data' : PageData) (h : offset ≠ o) :
    (file.put offset data).put o data' = (file.put o data').put offset data := by
  simp only [put, Function.update_comm h, max_right_comm]

theorem write_of_lt (file : File) {offset : ℕ} (data : PageData) (h : offset < 524288) :
    file.write offset data = .ok (file.put offset data) := by
  rw [write, position_eq_ok.mpr ⟨h, rfl⟩]; rfl

theorem write_of_ge (file : File) {offset : ℕ} (data : PageData) (h : 524288 ≤ offset) :
    file.write offset data = .error .intOverflow := by
  have : ¬ Utils.pageSize * offset < 2147483648 := by simp only [Utils.pageSize]; omega
  rw [write, position, if_neg this]; rfl

theorem write_eq_ok {file file' : File} {offset : ℕ} {data : PageData} :
    file.write offset data = .ok file' ↔ offset < 524288 ∧ file' = file.put offset data := by
  rcases Nat.lt_or_ge offset 524288 with h | h
  · rw [write_of_lt file data h, Except.ok.injEq]
    exact ⟨fun he => ⟨h, he.symm⟩, fun he => he.2.symm⟩
  · rw [write_of_ge file data h]
    exact ⟨fun he => (by cases he), fun he => absurd he.1 (not_lt.mpr h)⟩

theorem readNode_of_page {file : File} {offset : ℕ} {node : BTreeNode} (h : offset < 524288)
    (hp : file.page offset = some (.node node)) : file.readNode offset = .ok node := by
  rw [readNode, position_eq_ok.mpr ⟨h, rfl⟩, ok_bind, hp]
  rfl

end File

end MiniKvs
