import MiniKvs.Lib.Layers
import MiniKvs.Sst.Merging
import MiniKvs.Store.KVStore

/-! What a store is for: a finite map. Between the map and the code stands the
snapshot, the entries of the memtable and of the SSTs without files, pages and
pool; as long as every merge keeps the newer entries, it denotes the map. -/

namespace MiniKvs

open Lib

/-- An operation, or a close with a fresh store opened on the same directory;
`order` is the order in which the directory is listed. -/
inductive Call
  | op (call : Op)
  | reopen (config : Config) (order : List String → List String)
      (perm : ∀ paths, (order paths).Perm paths)

section Calls

variable (xxh64 : XXH64) (sort : StdSort)

def Call.step : Call → World → Outcome (Reply × World)
  | .op call, w => World.step xxh64 sort call w
  | .reopen config order _, w => do
    let w ← w.close xxh64
    let w ← w.reopened config (order w.disk.keys)
    .ok (.done, w)

/-- A store opened on a directory that does not exist, and calls on it. -/
def runCalls (config : Config) (dbPath : String) (calls : List Call) :
    Outcome (List Reply × World) := do
  let store ← (KVStore.new config).open dbPath none
  run (Call.step xxh64 sort) calls ⟨store, .empty, []⟩

end Calls

/-! ### The map -/

abbrev KVMap := Uint32 → Option Uint32

/-- Only `put` and `deleteKey` change the map. -/
def KVMap.next : Call → KVMap → KVMap
  | .op (.put key value), m => Function.update m key (some value)
  | .op (.deleteKey key), m => Function.update m key none
  | _, m => m

/-- A lookup returns the value of the key, the invalid value if there is none. -/
def KVMap.Replies (m : KVMap) : Call → Reply → Prop
  | .op (.get key), r => r = .value ((m key).getD Utils.invalidValue)
  | _, _ => True

/-- The values that may be put. -/
def Call.ValueOk : Call → Prop
  | .op (.put _ value) => value < Utils.tombStone
  | _ => True

instance : (call : Call) → Decidable call.ValueOk
  | .op (.put _ _) => inferInstanceAs (Decidable (_ < _))
  | .op (.deleteKey _) => .isTrue trivial
  | .op (.get _) => .isTrue trivial
  | .op (.scan _ _) => .isTrue trivial
  | .op .close => .isTrue trivial
  | .reopen _ _ _ => .isTrue trivial

/-! ### The snapshot -/

structure Snapshot where
  memtable : List Entry
  entries : ℕ
  memtableSize : ℕ
  sstCount : ℕ
  slots : List (Option (List Entry))

namespace Snapshot

def new (config : Config) : Snapshot := ⟨[], 0, config.memtableSize, 0, []⟩

def flush (t : Snapshot) : Snapshot :=
  if t.memtable = [] then t
  else { t with
    memtable := []
    entries := 0
    sstCount := t.sstCount + 1
    slots := settle Entry.key t.slots t.memtable }

def put (key value : Uint32) (t : Snapshot) : Snapshot :=
  { t with
    memtable := insertKey Entry.key ⟨key, value⟩ t.memtable
    entries := t.entries + 1 }

def deleteKey (key : Uint32) (t : Snapshot) : Snapshot :=
  { t with memtable := insertKey Entry.key ⟨key, Utils.tombStone⟩ t.memtable }

/-- A fresh store on the SSTs. -/
def restarted (config : Config) (t : Snapshot) : Snapshot := { new config with slots := t.slots }

def next : Call → Snapshot → Snapshot
  | .op (.put key value), t =>
    if (t.put key value).entries ≥ t.memtableSize then (t.put key value).flush
    else t.put key value
  | .op (.deleteKey key), t => t.deleteKey key
  | .op (.get _), t => t
  | .op (.scan _ _), t => t
  | .op .close, t => t.flush
  | .reopen config _ _, t => t.flush.restarted config

/-! ### When the code does as the snapshot -/

/-- The pages of an SST of the entries are in the range of an int. -/
def Fits (es : List Entry) : Prop :=
  BTreeNode.getTotalNumberOfNodes (chunks BTreeNode.maxKeys es).length < 524288

/-- All SSTs on the way to the first free level fit, and each merge is one that
keeps the newer entries: the older SST does not have the key that marks an
exhausted one, and in the last level none of its tombstones is overwritten. -/
def Settles : List (Option (List Entry)) → List Entry → Prop
  | some old :: slots, es =>
    Fits es ∧ (∀ e ∈ old, e.key ≠ Utils.invalidValue) ∧
      BTreeNode.NoClash slots.isEmpty old es ∧ Settles slots (mergeNewer Entry.key old es)
  | _, es => Fits es

/-- A flush succeeds and loses nothing. -/
def Flushable (t : Snapshot) : Prop :=
  t.memtable ≠ [] → Settles t.slots t.memtable ∧ t.sstCount + 1 < 2147483648

def Safe (dbPath : String) (t : Snapshot) : Call → Prop
  | .op (.put key value) =>
    (t.put key value).entries ≥ t.memtableSize → (t.put key value).Flushable
  | .op .close => t.Flushable
  | .reopen _ _ _ => t.Flushable ∧ Level.searchName dbPath.toList = none ∧
      t.flush.slots.length ≤ 1073741824
  | _ => True

instance (es : List Entry) : Decidable (Fits es) := inferInstanceAs (Decidable (_ < _))

instance (isLastLevel : Bool) (old new : List Entry) :
    Decidable (BTreeNode.NoClash isLastLevel old new) :=
  inferInstanceAs (Decidable (isLastLevel = true → ∀ e ∈ old, e.value = Utils.tombStone →
    ∀ e' ∈ new, e'.key ≠ e.key))

instance : (slots : List (Option (List Entry))) → (es : List Entry) → Decidable (Settles slots es)
  | [], es => inferInstanceAs (Decidable (Fits es))
  | none :: _, es => inferInstanceAs (Decidable (Fits es))
  | some old :: slots, es =>
    @instDecidableAnd _ _ _ (@instDecidableAnd _ _ _ (@instDecidableAnd _ _ _
      (instDecidableSettles slots (mergeNewer Entry.key old es))))

instance (t : Snapshot) : Decidable t.Flushable :=
  inferInstanceAs (Decidable (_ ≠ [] → _ ∧ _ < _))

instance (dbPath : String) (t : Snapshot) : (call : Call) → Decidable (t.Safe dbPath call)
  | .op (.put key value) =>
    inferInstanceAs (Decidable ((t.put key value).entries ≥ t.memtableSize → _))
  | .op (.deleteKey _) => .isTrue trivial
  | .op (.get _) => .isTrue trivial
  | .op (.scan _ _) => .isTrue trivial
  | .op .close => inferInstanceAs (Decidable t.Flushable)
  | .reopen _ _ _ => inferInstanceAs (Decidable (_ ∧ _ = none ∧ _ ≤ _))

/-! ### The snapshot denotes the map -/

/-- The newest entry of a key. -/
def find (t : Snapshot) (key : Uint32) : Option Entry :=
  (findKey Entry.key t.memtable key).or (lookup Entry.key t.slots key)

/-- The value of an entry, none for a tombstone. -/
def live (o : Option Entry) : Option Uint32 :=
  o.bind fun e => if e.value = Utils.tombStone then none else some e.value

structure Denotes (t : Snapshot) (m : KVMap) : Prop where
  memtable : SortedBy Entry.key t.memtable
  slots : AllSorted Entry.key t.slots
  value : ∀ key, ∀ e ∈ t.find key, e.value ≠ Utils.invalidValue
  map : ∀ key, m key = live (t.find key)

namespace Denotes

variable {t : Snapshot} {m : KVMap}

theorem new (config : Config) : (Snapshot.new config).Denotes fun _ => none where
  memtable := sortedBy_nil
  slots l hl := by cases hl
  value key e he := by cases he
  map key := rfl

/-- An entry that comes into the memtable is the newest one of its key. -/
theorem insert (h : t.Denotes m) {key value : Uint32} (hv : value ≠ Utils.invalidValue)
    (t' : Snapshot) (hm : t'.memtable = insertKey Entry.key ⟨key, value⟩ t.memtable)
    (hs : t'.slots = t.slots) :
    t'.Denotes (Function.update m key (live (some ⟨key, value⟩))) := by
  have hfind : ∀ k, t'.find k = if k = key then some ⟨key, value⟩ else t.find k := by
    intro k
    rw [find, hm, hs, findKey_insertKey]
    split_ifs with h1 h2 h2
    · rfl
    · exact absurd h1.symm h2
    · exact absurd h2.symm h1
    · rfl
  refine ⟨hm ▸ h.memtable.insertKey _, hs ▸ h.slots, fun k e he => ?_, fun k => ?_⟩
  · rw [hfind] at he
    split_ifs at he
    · cases he
      exact hv
    · exact h.value k e he
  · rw [hfind, Function.update_apply]
    split_ifs
    · rfl
    · exact h.map k

theorem flush (h : t.Denotes m) : t.flush.Denotes m := by
  unfold Snapshot.flush
  split_ifs with hnil
  · exact h
  · have hfind : ∀ k, find { t with
        memtable := []
        entries := 0
        sstCount := t.sstCount + 1
        slots := settle Entry.key t.slots t.memtable } k = t.find k := by
      intro k
      simp only [find, lookup_settle h.slots h.memtable, findKey_nil, Option.none_or]
    exact ⟨sortedBy_nil, h.slots.settle h.memtable, fun k => by rw [hfind]; exact h.value k,
      fun k => by rw [hfind]; exact h.map k⟩

/-- Each call changes the snapshot as it changes the map. -/
theorem next (h : t.Denotes m) {call : Call} (hv : call.ValueOk) :
    (t.next call).Denotes (m.next call) := by
  cases call with
  | op call =>
    cases call with
    | put key value =>
      have hne : value ≠ Utils.invalidValue := (hv.trans (by decide)).ne
      have hlive : live (some ⟨key, value⟩) = some value := if_neg (ne_of_lt hv)
      have hput := h.insert hne (t.put key value) rfl rfl
      rw [hlive] at hput
      rw [Snapshot.next]
      split_ifs
      · exact hput.flush
      · exact hput
    | deleteKey key => exact h.insert (by decide) (t.deleteKey key) rfl rfl
    | get key => exact h
    | scan startKey endKey => exact h
    | close => exact h.flush
  | reopen config order perm =>
    -- all entries are in the SSTs
    have hf := h.flush
    have hnil : t.flush.memtable = [] := by
      unfold Snapshot.flush
      split_ifs with hnil
      · exact hnil
      · rfl
    have hfind : ∀ k, (t.flush.restarted config).find k = t.flush.find k := by
      intro k
      simp only [find, hnil]
      rfl
    exact ⟨sortedBy_nil, hf.slots, fun k => (hfind k).symm ▸ hf.value k,
      fun k => (hf.map k).trans (congrArg live (hfind k).symm)⟩

end Denotes

end Snapshot

end MiniKvs
