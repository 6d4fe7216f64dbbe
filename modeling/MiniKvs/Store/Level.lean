import MiniKvs.Sst.Search

/-! The LSM tree (`level.cpp`): levels of SST paths over a directory of files. -/

namespace MiniKvs

open Lib

/-- The regular files of the database directory, by path. -/
abbrev Disk (φ : Type := File) := OrdMap String φ

/-- The file at a path; opening or sizing one that is not there fails. -/
def Disk.read {φ : Type} (disk : Disk φ) (path : String) : Outcome φ :=
  match disk.find path with
  | none => .error .badRead
  | some file => .ok file

/-- `path / name` -/
def joinPath (path name : String) : String :=
  if path = "" ∨ path.toList.getLast? = some '/' then path ++ name else path ++ "/" ++ name

def sstPath (dbPath : String) (sstNum : ℕ) : String :=
  joinPath dbPath ("sst_" ++ toString sstNum ++ ".dat")

structure Level where
  sstList : List String
  deriving DecidableEq

/-- A call that writes an SST: the levels it saw and the path it wrote to. -/
inductive Event
  | flush (levels : List Level) (path : String)
  | compact (levels : List Level) (currentLevel : ℕ) (path : String) (isLastLevel : Bool)
  deriving DecidableEq

/-- What `update_levels` reads and changes. Nothing reads the log of its calls. -/
structure Tree (φ : Type := File) (δ : Type := PageData) where
  levels : List Level
  bufferPool : BufferPool δ
  disk : Disk φ
  log : List Event

/-- How SSTs are kept, as pages or as bytes. A merge is told how many there were before. -/
structure Storage (φ : Type) where
  hash : String → UInt64
  empty : φ
  numPages : φ → ℕ
  merge : ℕ → φ → φ → Bool → Outcome φ

def Storage.pages (xxh64 : XXH64) : Storage File where
  hash := xxh64.page
  empty := .empty
  numPages := File.numPages
  merge _ := BTreeNode.mergeSsts xxh64

namespace Level

def sizeRatio : ℕ := 2

def push (sst : String) (level : Level) : Level := ⟨level.sstList ++ [sst]⟩

def addNewLevel (levels : List Level) : List Level := levels ++ [⟨[]⟩]

section Update

variable {φ δ : Type} (storage : Storage φ) (dbPath : String)

/-- Merge the first two SSTs of the level and remove all of them. -/
def compact (level : Level) (sstNum : ℕ) (isLastLevel : Bool) (before : ℕ) (disk : Disk φ) :
    Outcome (Level × Disk φ) :=
  match level.sstList with
  | oldSstPath :: newSstPath :: _ => do
    let outputPath := sstPath dbPath sstNum
    -- the output is opened, and so emptied, before the inputs are read
    let disk : Disk φ := disk.set outputPath storage.empty
    let oldSst ← disk.read oldSstPath
    let newSst ← disk.read newSstPath
    let output ← storage.merge before oldSst newSst isLastLevel
    let disk : Disk φ := disk.set outputPath output
    .ok (⟨[outputPath]⟩, level.sstList.foldl (fun disk sst => disk.erase sst) disk)
  | _ => .error .badRead

/-- Remove the pages of the SSTs from the buffer pool. -/
def removePages (disk : Disk φ) : List String → BufferPool δ → Outcome (BufferPool δ)
  | [], bufferPool => .ok bufferPool
  | sst :: ssts, bufferPool => do
    let file ← disk.read sst
    let bufferPool ← (List.range (storage.numPages file)).foldlM
      (fun bufferPool i => bufferPool.remove storage.hash (Page.generatePageId sst i)) bufferPool
    removePages disk ssts bufferPool

/-- Every round goes one level deeper. -/
def compactLevels : ℕ → ℕ → Tree φ δ → Outcome (Tree φ δ)
  | 0, _, _ => .error .noReturn
  | fuel + 1, currentLevel, tree =>
    match tree.levels[currentLevel]? with
    | none => .ok tree
    | some level =>
      if level.sstList.length ≥ sizeRatio then do
        let isLastLevel : Bool := currentLevel = tree.levels.length - 1
        let levels :=
          if currentLevel ≥ tree.levels.length - 1 then addNewLevel tree.levels else tree.levels
        let bufferPool ← removePages storage tree.disk level.sstList tree.bufferPool
        let newSstNum := (currentLevel + 1) * sizeRatio +
          (levels.getD (currentLevel + 1) ⟨[]⟩).sstList.length
        let log := tree.log ++
          [.compact levels currentLevel (sstPath dbPath newSstNum) isLastLevel]
        let (level, disk) ←
          compact storage dbPath level newSstNum isLastLevel tree.log.length tree.disk
        let levels := levels.modify (currentLevel + 1) fun l => ⟨l.sstList ++ level.sstList.take 1⟩
        compactLevels fuel (currentLevel + 1)
          ⟨levels.set currentLevel ⟨[]⟩, bufferPool, disk, log⟩
      else .ok tree

def updateLevels (sst : String) (tree : Tree φ δ) : Outcome (Tree φ δ) :=
  let levels := if tree.levels.length = 0 then addNewLevel tree.levels else tree.levels
  let levels := levels.modify 0 (push sst)
  compactLevels storage dbPath (levels.length + 1) 0 { tree with levels := levels }

end Update

/-! ### Loading -/

/-- A match of `sst_(\d+)\.dat` at the start of the text. -/
def matchName (text : List Char) : Option (List Char) :=
  if "sst_".toList.isPrefixOf text then
    let num := (text.drop 4).takeWhile Char.isDigit
    if num ≠ [] ∧ ".dat".toList.isPrefixOf ((text.drop 4).dropWhile Char.isDigit) then some num
    else none
  else none

/-- The digits of the leftmost match. -/
def searchName : List Char → Option (List Char)
  | [] => none
  | c :: text => (matchName (c :: text)).or (searchName text)

def stoi (num : List Char) : Outcome ℤ :=
  if Nat.ofDigitChars 10 num 0 < 2147483648 then .ok (Nat.ofDigitChars 10 num 0)
  else .error .outOfRange

def extractNumberFromFilename (fileName : String) : Outcome ℤ :=
  match searchName fileName.toList with
  | some num => stoi num
  | none => .ok (-1)

/-- SST numbers are static, so the level of an SST is inferred from its number. -/
def loadIntoLsmTree (levels : List Level) (sst : String) : Outcome (List Level) := do
  let sstNum ← extractNumberFromFilename sst
  let level := (sstNum.tdiv sizeRatio).toNat
  let levels := levels ++ List.replicate (level + 1 - levels.length) ⟨[]⟩
  .ok (levels.modify level (push sst))

end Level

end MiniKvs
