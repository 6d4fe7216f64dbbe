import MiniKvs.Pool.DepthBounds
import MiniKvs.Pool.LockStep
import MiniKvs.Pool.SplitRecursion

/-! The buffer pool with `resize` (`buffer_pool.cpp`). A resize shrinks the directory,
which may leave deleted pages and buckets in the table, so every call here checks that
the objects it uses are live. Without the checks the calls are those of the table. -/

namespace MiniKvs

open Lib

variable {δ : Type}

namespace LiveTable

/-- The bucket of an entry that is about to be used. -/
def usedBucket (s : LiveTable δ) (bucketId : List Bool) : Except ShrinkFault ℕ := do
  let b ← s.bucketAt bucketId
  if b ∈ s.liveBuckets then .ok b else .error .deletedObject

/-- `bucket->get_page` reads the ids of the pages up to the one it finds. -/
def findPage (s : LiveTable δ) (pageId : String) :
    List (Page δ) → Except ShrinkFault (Option (Page δ))
  | [] => .ok none
  | page :: pages =>
    if page.addr ∈ s.livePages then
      if page.pageId = pageId then .ok (some page) else findPage s pageId pages
    else .error .deletedObject

/-- `new Page` -/
def newPage (s : LiveTable δ) (addr : ℕ) : LiveTable δ :=
  { s with livePages := insert addr s.livePages }

/-- `new Bucket`, for the entry `newId`. -/
def newBucket (s : LiveTable δ) (newId : List Bool) (depth : ℤ) : LiveTable δ where
  table := { s.table with
    buckets := s.table.buckets.set newId s.table.allocated
    heap := Function.update s.table.heap s.table.allocated (.new depth)
    allocated := s.table.allocated + 1 }
  liveBuckets := insert s.table.allocated s.liveBuckets
  livePages := s.livePages

def splitBucket (insert : LiveTable δ → Page δ → Except ShrinkFault (LiveTable δ))
    (s : LiveTable δ) (bucketId : List Bool) : Except ShrinkFault (LiveTable δ) := do
  let overflow ← s.usedBucket bucketId
  let s := { s with table := s.table.modifyBucket overflow Bucket.incrementLocalDepth }
  let newId := if bucketId.length < s.table.globalDepth then true :: bucketId
    else true :: bucketId.tail
  let atNew ← s.bucketAt newId
  let atPair ← s.bucketAt (ExtendibleHashtable.getPairBucketId newId)
  let s := if atNew = atPair then s.newBucket newId (s.table.heap overflow).localDepth else s
  let pages := (s.table.heap overflow).pages
  let t := { s.table with size := s.table.size - (s.table.heap overflow).size }
  pages.foldlM insert { s with table := t.modifyBucket overflow Bucket.clear }

/-- How many splits the local depths leave to the buckets, those they split off included. -/
def splitsLeft (s : LiveTable δ) : ℕ :=
  ∑ b ∈ s.liveBuckets, (2 ^ ((s.table.globalDepth : ℤ) - (s.table.heap b).localDepth).toNat - 1)

section Operations

variable (xxh64 : String → UInt64)

def insertPageFuel : ℕ → LiveTable δ → Page δ → Except ShrinkFault (LiveTable δ)
  | 0, _, _ => .error (.table .noReturn)
  | fuel + 1, s, page =>
    if page.addr ∈ s.livePages then do
      let bucketId := s.table.hashFunction xxh64 page.pageId
      let bucket ← s.usedBucket bucketId
      let t := s.table.modifyBucket bucket (·.insertPage page)
      let s := { s with table := { t with size := t.size + 1 } }
      if (s.table.heap bucket).size > s.table.bucketMaxSize ∧
          (s.table.heap bucket).localDepth < s.table.globalDepth then
        splitBucket (insertPageFuel fuel) s bucketId
      else .ok s
    else .error .deletedObject

def insertPage (s : LiveTable δ) (page : Page δ) : Except ShrinkFault (LiveTable δ) :=
  insertPageFuel xxh64 (s.splitsLeft + 1) s page

def getPage (s : LiveTable δ) (pageId : String) : Except ShrinkFault (Option (Page δ)) :=
  match s.table.buckets.find (s.table.hashFunction xxh64 pageId) with
  | none => .ok none
  | some b =>
    if b ∈ s.liveBuckets then s.findPage pageId (s.table.heap b).pages else .error .deletedObject

def removePage (s : LiveTable δ) (pageToEvict : Page δ) : Except ShrinkFault (LiveTable δ) := do
  let bucket ← s.usedBucket (s.table.hashFunction xxh64 pageToEvict.pageId)
  let t := s.table.modifyBucket bucket (·.removePage pageToEvict)
  let s ← { s with table := t }.deletePage pageToEvict
  .ok { s with table := { s.table with size := s.table.size - 1 } }

end Operations

end LiveTable

/-- A buffer pool with its live objects. -/
structure LivePool (δ : Type) where
  hashtable : LiveTable δ
  evictionPolicy : LRU
  /-- The next free page address. -/
  allocated : ℕ

namespace LivePool

def new (minSize maxSize : ℕ) : LivePool δ := ⟨.ofTable (.new minSize maxSize 1), .new, 0⟩

def size (pool : LivePool δ) : ℤ := pool.hashtable.table.size

/-- `size - EXPANSION_THRESHOLD * new_max_size` in floats, counted in quarters. -/
def surplus (size newMaxSize : ℕ) : ℤ :=
  Utils.roundFloat (4 * Utils.toFloat size - Utils.toFloat (3 * Utils.toFloat newMaxSize))

/-- `std::ceil` of the surplus. -/
def numToEvict (size newMaxSize : ℕ) : ℤ := -(-surplus size newMaxSize / 4)

/-- A fault of the list stops a call like one of the table. -/
def policy {α : Type} (x : Outcome α) : Except ShrinkFault α := x.mapError .table

section Operations

variable (xxh64 : String → UInt64)

def evict (pool : LivePool δ) : Except ShrinkFault (LivePool δ) := do
  let (key, evictionPolicy) ← policy pool.evictionPolicy.evict
  match ← pool.hashtable.getPage xxh64 key with
  | none => .error (.table .nullDereference)
  | some page =>
    let hashtable ← pool.hashtable.removePage xxh64 page
    .ok { pool with hashtable := hashtable, evictionPolicy := evictionPolicy }

def evictTimes : ℕ → LivePool δ → Except ShrinkFault (LivePool δ)
  | 0, pool => .ok pool
  | n + 1, pool => do
    let pool ← pool.evict xxh64
    evictTimes n pool

def resize (pool : LivePool δ) (newMaxSize : ℕ) : Except ShrinkFault (LivePool δ) := do
  let numToEvict := numToEvict pool.size.toNat newMaxSize
  if 2147483648 ≤ numToEvict then .error (.table .intOverflow) else do
  let pool ← if 0 < numToEvict then do
      let pool ← pool.evictTimes xxh64 numToEvict.toNat
      let hashtable ← pool.hashtable.shrinkDirectory
      .ok { pool with hashtable := hashtable }
    else .ok pool
  let hashtable ← pool.hashtable.setMaxSize newMaxSize
  .ok { pool with hashtable := hashtable }

/-- Expand the directory above the load threshold, or evict when it is at its maximum. -/
def makeRoom (pool : LivePool δ) : Except ShrinkFault (LivePool δ) :=
  let t := pool.hashtable.table
  if BufferPool.overThreshold t.size.toNat t.getNumDirectory then
    if t.expandDirectory.1 then .ok { pool with hashtable := pool.hashtable.expandDirectory }
    else pool.evict xxh64
  else .ok pool

def insert (pool : LivePool δ) (pageId : String) (data : δ) :
    Except ShrinkFault (LivePool δ) := do
  let pool ← pool.makeRoom xxh64
  let hashtable ← (pool.hashtable.newPage pool.allocated).insertPage xxh64
    ⟨pool.allocated, pageId, data⟩
  .ok { hashtable := hashtable
        evictionPolicy := pool.evictionPolicy.insert pageId
        allocated := pool.allocated + 1 }

def remove (pool : LivePool δ) (pageId : String) : Except ShrinkFault (LivePool δ) := do
  match ← pool.hashtable.getPage xxh64 pageId with
  | none => .ok pool
  | some page =>
    let hashtable ← pool.hashtable.removePage xxh64 page
    let evictionPolicy ← policy (pool.evictionPolicy.remove pageId)
    .ok { pool with hashtable := hashtable, evictionPolicy := evictionPolicy }

end Operations

end LivePool

/-- The calls that change what a pool holds. -/
inductive PoolCall (δ : Type)
  | insert (pageId : String) (data : δ)
  | remove (pageId : String)
  | resize (newMaxSize : ℕ)

/-- A size is an int from one on. -/
def PoolCall.InRange : PoolCall δ → Prop
  | .resize newMaxSize => 1 ≤ newMaxSize ∧ newMaxSize < 2147483648
  | _ => True

/-- A pool with its maximum size, of which it keeps the logarithm alone. -/
structure SizedPool (δ : Type) where
  pool : LivePool δ
  maxSize : ℕ

namespace SizedPool

def new (minSize maxSize : ℕ) : SizedPool δ := ⟨.new minSize maxSize, maxSize⟩

def call (xxh64 : String → UInt64) :
    PoolCall δ → SizedPool δ → Except ShrinkFault (Unit × SizedPool δ)
  | .insert pageId data, s =>
    (s.pool.insert xxh64 pageId data).map fun pool => ((), { s with pool := pool })
  | .remove pageId, s => (s.pool.remove xxh64 pageId).map fun pool => ((), { s with pool := pool })
  | .resize newMaxSize, s =>
    (s.pool.resize xxh64 newMaxSize).map fun pool => ((), ⟨pool, newMaxSize⟩)

/-- A page that is put in is not held. -/
def NotHeld (xxh64 : String → UInt64) (s : SizedPool δ) : PoolCall δ → Prop
  | .insert pageId _ => (s.pool.hashtable.table.getPage xxh64 pageId).isNone
  | _ => True

instance {xxh64 : String → UInt64} :
    DecidableRel (NotHeld xxh64 : SizedPool δ → PoolCall δ → Prop)
  | _, .insert _ _ => inferInstanceAs (Decidable (_ = true))
  | _, .remove _ => .isTrue trivial
  | _, .resize _ => .isTrue trivial

end SizedPool

namespace LiveTable

variable {xxh64 : String → UInt64} {s s' : LiveTable δ}

/-! ### The calls without the checks -/

theorem usedBucket_eq_ok {id : List Bool} {b : ℕ} :
    s.usedBucket id = .ok b ↔ s.table.buckets.find id = some b ∧ b ∈ s.liveBuckets := by
  rw [usedBucket, bind_eq_ok]
  constructor
  · rintro ⟨c, hc, h⟩
    split_ifs at h with hl
    obtain rfl := Except.ok.inj h
    exact ⟨bucketAt_eq_ok.mp hc, hl⟩
  · rintro ⟨hb, hl⟩
    exact ⟨b, bucketAt_eq_ok.mpr hb, if_pos hl⟩

theorem findPage_eq_ok {pageId : String} {r : Option (Page δ)} : ∀ {pages : List (Page δ)},
    s.findPage pageId pages = .ok r → (pages.find? fun page => page.pageId = pageId) = r
  | [], h => Except.ok.inj h
  | page :: pages, h => by
    rw [findPage] at h
    split_ifs at h with hl he
    · rw [List.find?_cons_of_pos (by simpa using he)]
      exact Except.ok.inj h
    · rw [List.find?_cons_of_neg (by simpa using he)]
      exact findPage_eq_ok h

theorem getPage_table {pageId : String} {r : Option (Page δ)}
    (h : s.getPage xxh64 pageId = .ok r) : s.table.getPage xxh64 pageId = r := by
  rw [getPage] at h
  rw [ExtendibleHashtable.getPage]
  cases hf : s.table.buckets.find (s.table.hashFunction xxh64 pageId) with
  | none =>
    rw [hf] at h
    exact Except.ok.inj h
  | some b =>
    simp only [hf] at h
    split_ifs at h
    exact findPage_eq_ok h

theorem bucketAt_table {id : List Bool} {b : ℕ} (h : s.bucketAt id = .ok b) :
    s.table.bucketAt id = .ok b := by
  rw [ExtendibleHashtable.bucketAt, bucketAt_eq_ok.mp h]

theorem usedBucket_table {id : List Bool} {b : ℕ} (h : s.usedBucket id = .ok b) :
    s.table.bucketAt id = .ok b :=
  bucketAt_table (bucketAt_eq_ok.mpr (usedBucket_eq_ok.mp h).1)

theorem splitBucket_table {insert : LiveTable δ → Page δ → Except ShrinkFault (LiveTable δ)}
    {insert' : ExtendibleHashtable δ → Page δ → Outcome (ExtendibleHashtable δ)}
    (hins : ∀ s p s', insert s p = .ok s' → insert' s.table p = .ok s'.table) {id : List Bool}
    (h : s.splitBucket insert id = .ok s') :
    s.table.splitBucket insert' id = .ok s'.table := by
  obtain ⟨b, hb, h⟩ := bind_eq_ok.mp h
  obtain ⟨atNew, hn, h⟩ := bind_eq_ok.mp h
  obtain ⟨atPair, hp, h⟩ := bind_eq_ok.mp h
  refine bind_eq_ok.mpr ⟨b, usedBucket_table hb, bind_eq_ok.mpr ⟨atNew, bucketAt_table hn,
    bind_eq_ok.mpr ⟨atPair, bucketAt_table hp, ?_⟩⟩⟩
  have hfold := foldlM_map table hins h
  split_ifs at hfold ⊢ <;> exact hfold

theorem insertPageFuel_table (fuel : ℕ) : ∀ {s s' : LiveTable δ} {p : Page δ},
    s.insertPageFuel xxh64 fuel p = .ok s' →
      s.table.insertPageFuel xxh64 fuel p = .ok s'.table := by
  induction fuel with
  | zero => intro s s' p h; cases h
  | succ fuel ih =>
    intro s s' p h
    rw [insertPageFuel] at h
    split_ifs at h
    obtain ⟨b, hb, h⟩ := bind_eq_ok.mp h
    refine bind_eq_ok.mpr ⟨b, usedBucket_table hb, ?_⟩
    simp only at h ⊢
    split_ifs at h ⊢
    · exact splitBucket_table (fun _ _ _ => ih) h
    · exact congrArg _ (congrArg table (Except.ok.inj h))

/-- The fuels of the two differ, and more of it changes nothing. -/
theorem insertPage_table {p : Page δ} {t : ExtendibleHashtable δ}
    (h : s.insertPage xxh64 p = .ok s') (ht : s.table.insertPage xxh64 p = .ok t) :
    s'.table = t :=
  ExtendibleHashtable.insertPageFuel_unique (insertPageFuel_table _ h) ht

theorem removePage_table {p : Page δ} (h : s.removePage xxh64 p = .ok s') :
    s.table.removePage xxh64 p = .ok s'.table := by
  obtain ⟨b, hb, h⟩ := bind_eq_ok.mp h
  obtain ⟨s₁, hd, h⟩ := bind_eq_ok.mp h
  obtain ⟨-, rfl⟩ := deletePage_eq_ok.mp hd
  exact bind_eq_ok.mpr ⟨b, usedBucket_table hb, congrArg _ (congrArg table (Except.ok.inj h))⟩

end LiveTable

namespace LivePool

variable {xxh64 : String → UInt64} {pool pool' : LivePool δ} {ps : List (Page δ)}

/-- The pool without its live objects. -/
def toBufferPool (pool : LivePool δ) : BufferPool δ :=
  ⟨pool.hashtable.table, pool.evictionPolicy, pool.allocated⟩

theorem policy_eq_ok {α : Type} {x : Outcome α} {a : α} : policy x = .ok a ↔ x = .ok a := by
  cases x <;> simp [policy, Except.mapError]

theorem evict_eq_ok : pool.evict xxh64 = .ok pool' ↔ ∃ key l p s,
    pool.evictionPolicy.evict = .ok (key, l) ∧ pool.hashtable.getPage xxh64 key = .ok (some p) ∧
      pool.hashtable.removePage xxh64 p = .ok s ∧
      { pool with hashtable := s, evictionPolicy := l } = pool' := by
  rw [evict, bind_eq_ok]
  constructor
  · rintro ⟨⟨key, l⟩, hl, h⟩
    obtain ⟨r, hr, h⟩ := bind_eq_ok.mp h
    cases r with
    | none => cases h
    | some p =>
      obtain ⟨s, hs, h⟩ := bind_eq_ok.mp h
      exact ⟨key, l, p, s, policy_eq_ok.mp hl, hr, hs, Except.ok.inj h⟩
  · rintro ⟨key, l, p, s, hl, hr, hs, rfl⟩
    exact ⟨(key, l), policy_eq_ok.mpr hl, bind_eq_ok.mpr ⟨some p, hr, bind_eq_ok.mpr ⟨s, hs, rfl⟩⟩⟩

theorem remove_cases {pageId : String} (h : pool.remove xxh64 pageId = .ok pool') :
    pool.hashtable.getPage xxh64 pageId = .ok none ∧ pool' = pool ∨ ∃ p s l,
      pool.hashtable.getPage xxh64 pageId = .ok (some p) ∧
      pool.hashtable.removePage xxh64 p = .ok s ∧ pool.evictionPolicy.remove pageId = .ok l ∧
      pool' = { pool with hashtable := s, evictionPolicy := l } := by
  obtain ⟨r, hr, h⟩ := bind_eq_ok.mp h
  cases r with
  | none => exact .inl ⟨hr, (Except.ok.inj h).symm⟩
  | some p =>
    obtain ⟨s, hs, h⟩ := bind_eq_ok.mp h
    obtain ⟨l, hl, h⟩ := bind_eq_ok.mp h
    exact .inr ⟨p, s, l, hr, hs, policy_eq_ok.mp hl, (Except.ok.inj h).symm⟩

theorem evict_toBufferPool (h : pool.evict xxh64 = .ok pool') :
    pool.toBufferPool.evict xxh64 = .ok pool'.toBufferPool := by
  obtain ⟨key, l, p, s, hl, hr, hs, rfl⟩ := evict_eq_ok.mp h
  refine bind_eq_ok.mpr ⟨(key, l), hl, ?_⟩
  have hp : pool.toBufferPool.hashtable.getPage xxh64 key = some p := LiveTable.getPage_table hr
  simp only [hp]
  exact bind_eq_ok.mpr ⟨s.table, LiveTable.removePage_table hs, rfl⟩

theorem remove_toBufferPool {pageId : String} (h : pool.remove xxh64 pageId = .ok pool') :
    pool.toBufferPool.remove xxh64 pageId = .ok pool'.toBufferPool := by
  rcases remove_cases h with ⟨hr, rfl⟩ | ⟨p, s, l, hr, hs, hl, rfl⟩
  · have hp : pool'.toBufferPool.hashtable.getPage xxh64 pageId = none :=
      LiveTable.getPage_table hr
    simp only [BufferPool.remove, hp]
  · have hp : pool.toBufferPool.hashtable.getPage xxh64 pageId = some p :=
      LiveTable.getPage_table hr
    simp only [BufferPool.remove, hp]
    exact bind_eq_ok.mpr ⟨s.table, LiveTable.removePage_table hs, bind_eq_ok.mpr ⟨l, hl, rfl⟩⟩

theorem makeRoom_cases (h : pool.makeRoom xxh64 = .ok pool') :
    BufferPool.overThreshold pool.size.toNat pool.hashtable.table.getNumDirectory = false ∧
      pool' = pool ∨
    BufferPool.overThreshold pool.size.toNat pool.hashtable.table.getNumDirectory = true ∧
      (pool.hashtable.table.globalDepth ≠ pool.hashtable.table.maxDepth ∧
          pool' = { pool with hashtable := pool.hashtable.expandDirectory } ∨
        pool.hashtable.table.globalDepth = pool.hashtable.table.maxDepth ∧
          pool.evict xxh64 = .ok pool') := by
  simp only [makeRoom] at h
  split_ifs at h with ho he
  · refine .inr ⟨ho, .inl ⟨fun hg => ?_, (Except.ok.inj h).symm⟩⟩
    rw [ExtendibleHashtable.expandDirectory, if_pos hg] at he
    cases he
  · refine .inr ⟨ho, .inr ⟨?_, h⟩⟩
    by_contra hg
    rw [ExtendibleHashtable.expandDirectory, if_neg hg] at he
    exact he rfl
  · exact .inl ⟨Bool.eq_false_iff.mpr ho, (Except.ok.inj h).symm⟩

theorem insert_cases {pageId : String} {data : δ} (h : pool.insert xxh64 pageId data = .ok pool') :
    ∃ pool₁ s, pool.makeRoom xxh64 = .ok pool₁ ∧
      (pool₁.hashtable.newPage pool₁.allocated).insertPage xxh64 ⟨pool₁.allocated, pageId, data⟩ =
        .ok s ∧
      pool' = ⟨s, pool₁.evictionPolicy.insert pageId, pool₁.allocated + 1⟩ := by
  obtain ⟨pool₁, hm, h⟩ := bind_eq_ok.mp h
  obtain ⟨s, hs, h⟩ := bind_eq_ok.mp h
  exact ⟨pool₁, s, hm, hs, (Except.ok.inj h).symm⟩

theorem makeRoom_toBufferPool (h : pool.makeRoom xxh64 = .ok pool') :
    pool.toBufferPool.makeRoom xxh64 = .ok pool'.toBufferPool := by
  have hsize : pool.toBufferPool.hashtable.size.toNat = pool.size.toNat := rfl
  have hnum : pool.toBufferPool.hashtable.getNumDirectory =
    pool.hashtable.table.getNumDirectory := rfl
  simp only [BufferPool.makeRoom, hsize, hnum]
  rcases makeRoom_cases h with ⟨ho, rfl⟩ | ⟨ho, ⟨hg, rfl⟩ | ⟨hg, he⟩⟩
  · simp only [ho, Bool.false_eq_true, if_false]
  · have hg' : pool.toBufferPool.hashtable.globalDepth ≠ pool.toBufferPool.hashtable.maxDepth := hg
    simp only [ho, if_true, ExtendibleHashtable.expandDirectory, if_neg hg']
    simp only [toBufferPool, LiveTable.expandDirectory, ExtendibleHashtable.expandDirectory,
      if_neg hg]
  · have hg' : pool.toBufferPool.hashtable.globalDepth = pool.toBufferPool.hashtable.maxDepth := hg
    simp only [ho, if_true, ExtendibleHashtable.expandDirectory, if_pos hg', Bool.false_eq_true,
      if_false]
    exact evict_toBufferPool he

/-- Where the pool without checks holds its pages, the two put in a page the same way. -/
theorem insert_toBufferPool (hh : BufferPool.Holds xxh64 pool.toBufferPool ps) {pageId : String}
    {data : δ} (hf : ∀ p ∈ ps, p.pageId ≠ pageId)
    (h : pool.insert xxh64 pageId data = .ok pool') :
    pool.toBufferPool.insert xxh64 pageId data = .ok pool'.toBufferPool := by
  obtain ⟨pool₁, s, hm, hs, rfl⟩ := insert_cases h
  have hm' := makeRoom_toBufferPool hm
  obtain ⟨ps', hsub, hh'⟩ := hh.makeRoom hm'
  obtain ⟨t, ht, -⟩ := hh'.insertPage data (fun p hp => hf p (hsub.subset hp)) pool₁.evictionPolicy
  obtain rfl : s.table = t := LiveTable.insertPage_table hs ht
  exact bind_eq_ok.mpr ⟨_, hm', bind_eq_ok.mpr ⟨s.table, ht, rfl⟩⟩

end LivePool

/-! ### Runs without a resize -/

/-- The call of the pool without checks, unless it is a resize. -/
def PoolCall.toOp : PoolCall δ → Option (BufferPool.Op δ)
  | .insert pageId data => some (.insert pageId data)
  | .remove pageId => some (.remove pageId)
  | .resize _ => none

namespace SizedPool

variable {xxh64 : String → UInt64} {s s' : SizedPool δ} {ps : List (Page δ)}

theorem call_toBufferPool {c : PoolCall δ} {op : BufferPool.Op δ} {r : Unit}
    (hh : BufferPool.Holds xxh64 s.pool.toBufferPool ps) (hc : c.toOp = some op)
    (hn : NotHeld xxh64 s c) (hs : call xxh64 c s = .ok (r, s')) :
    BufferPool.step xxh64 op s.pool.toBufferPool = .ok (none, s'.pool.toBufferPool) ∧
      ∃ ps', BufferPool.Holds xxh64 s'.pool.toBufferPool ps' := by
  cases c with
  | insert pageId data =>
    obtain ⟨pool, hp, he⟩ := map_eq_ok.mp hs
    cases he
    cases hc
    have hf := hh.getPage_eq_none.mp (Option.isNone_iff_eq_none.mp hn)
    have hi := LivePool.insert_toBufferPool hh hf hp
    obtain ⟨a, ps', -, hh'⟩ := hh.insert hf hi
    exact ⟨map_eq_ok.mpr ⟨_, hi, rfl⟩, _, hh'⟩
  | remove pageId =>
    obtain ⟨pool, hp, he⟩ := map_eq_ok.mp hs
    cases he
    cases hc
    have hr := LivePool.remove_toBufferPool hp
    exact ⟨map_eq_ok.mpr ⟨_, hr, rfl⟩, _, hh.remove hr⟩
  | resize newMaxSize => cases hc

/-- The checks change nothing in a run that returns. -/
theorem run_toBufferPool {calls : List (PoolCall δ)} (hcalls : ∀ c ∈ calls, c.toOp.isSome) :
    ∀ {s : SizedPool δ} {ps : List (Page δ)} {rs : List Unit},
      BufferPool.Holds xxh64 s.pool.toBufferPool ps →
      Along (call xxh64) (NotHeld xxh64) s calls → run (call xxh64) calls s = .ok (rs, s') →
      ∃ rs', run (BufferPool.step xxh64) (calls.filterMap PoolCall.toOp) s.pool.toBufferPool =
        .ok (rs', s'.pool.toBufferPool) := by
  induction calls with
  | nil =>
    intro s ps rs _ _ hr
    cases hr
    exact ⟨[], rfl⟩
  | cons c calls ih =>
    intro s ps rs hh ha hr
    obtain ⟨r, s₁, rs₁, h₁, hr, -⟩ := (run_cons_eq_ok _).mp hr
    obtain ⟨op, hop⟩ := Option.isSome_iff_exists.mp (hcalls c List.mem_cons_self)
    obtain ⟨hstep, ps₁, hh₁⟩ := call_toBufferPool hh hop ha.1 h₁
    obtain ⟨rs', hr'⟩ := ih (fun c' hc' => hcalls c' (List.mem_cons_of_mem c hc')) hh₁
      (ha.2 r s₁ h₁) hr
    rw [List.filterMap_cons_some hop]
    exact ⟨_, (run_cons_eq_ok _).mpr ⟨none, _, rs', hstep, hr', rfl⟩⟩

end SizedPool

end MiniKvs
