import MiniKvs.Lib.Matches
import MiniKvs.Pool.BufferPool

/-! The pool does not look at what its pages hold. To exchange the contents of all pages
and then call the pool is to call it and then exchange them. -/

namespace MiniKvs

open Lib

variable {δ δ' : Type}

def Page.map (f : δ → δ') (p : Page δ) : Page δ' := ⟨p.addr, p.pageId, f p.data⟩

def Bucket.map (f : δ → δ') (b : Bucket δ) : Bucket δ' :=
  ⟨b.pages.map (Page.map f), b.localDepth, b.size⟩

def ExtendibleHashtable.map (f : δ → δ') (t : ExtendibleHashtable δ) : ExtendibleHashtable δ' where
  globalDepth := t.globalDepth
  minDepth := t.minDepth
  maxDepth := t.maxDepth
  bucketMaxSize := t.bucketMaxSize
  size := t.size
  buckets := t.buckets
  heap := Bucket.map f ∘ t.heap
  allocated := t.allocated
  deleted := t.deleted.map (Page.map f)

def BufferPool.map (f : δ → δ') (pool : BufferPool δ) : BufferPool δ' :=
  ⟨pool.hashtable.map f, pool.evictionPolicy, pool.allocated⟩

variable {xxh64 : String → UInt64} {f : δ → δ'}

namespace Bucket

theorem map_getPage (b : Bucket δ) (pageId : String) :
    (b.map f).getPage pageId = (b.getPage pageId).map (Page.map f) := List.find?_map ..

theorem map_insertPage (b : Bucket δ) (p : Page δ) :
    (b.map f).insertPage (p.map f) = (b.insertPage p).map f := rfl

theorem map_removePage (b : Bucket δ) (p : Page δ) :
    (b.map f).removePage (p.map f) = (b.removePage p).map f := by
  rw [Bucket.removePage, Bucket.removePage, Bucket.map, Bucket.map, List.filter_map]
  rfl

end Bucket

namespace ExtendibleHashtable

variable {t : ExtendibleHashtable δ}

theorem map_modifyBucket {b : ℕ} {g : Bucket δ → Bucket δ} {g' : Bucket δ' → Bucket δ'}
    (hg : ∀ b, g' (b.map f) = (g b).map f) :
    (t.map f).modifyBucket b g' = (t.modifyBucket b g).map f := by
  simp only [modifyBucket, map, Function.comp_apply, hg, Function.comp_update]

theorem map_getPage (pageId : String) :
    (t.map f).getPage xxh64 pageId = (t.getPage xxh64 pageId).map (Page.map f) := by
  have hbucket : (t.map f).buckets.find ((t.map f).hashFunction xxh64 pageId) =
      t.buckets.find (t.hashFunction xxh64 pageId) := rfl
  rw [getPage, getPage, hbucket]
  cases t.buckets.find (t.hashFunction xxh64 pageId) with
  | none => rfl
  | some b => exact Bucket.map_getPage ..

/-- The same outcome, with other contents. -/
def Blind (f : δ → δ') :
    Outcome (ExtendibleHashtable δ') → Outcome (ExtendibleHashtable δ) → Prop :=
  Matches fun t' t => t' = t.map f

theorem map_removePage (p : Page δ) :
    Blind f ((t.map f).removePage xxh64 (p.map f)) (t.removePage xxh64 p) := by
  refine (Matches.of_eq (x := (t.map f).bucketAt _) (y := t.bucketAt _) rfl).bind ?_
  rintro b _ - - rfl
  refine .ok ?_
  rw [map_modifyBucket fun b => Bucket.map_removePage b p]
  rfl

/-- The pages of a bucket are taken out and put in again. -/
theorem map_rehash {insert : ExtendibleHashtable δ → Page δ → Outcome (ExtendibleHashtable δ)}
    {insert' : ExtendibleHashtable δ' → Page δ' → Outcome (ExtendibleHashtable δ')}
    (hinsert : ∀ t p, Blind f (insert' (t.map f) (p.map f)) (insert t p))
    (t : ExtendibleHashtable δ) (b : ℕ) :
    Blind f (((t.map f).heap b).pages.foldlM insert'
        (({ t.map f with size := (t.map f).size - ((t.map f).heap b).size } :
          ExtendibleHashtable δ').modifyBucket b Bucket.clear))
      ((t.heap b).pages.foldlM insert
        (({ t with size := t.size - (t.heap b).size } :
          ExtendibleHashtable δ).modifyBucket b Bucket.clear)) := by
  have hmodify : ({ t.map f with size := (t.map f).size - ((t.map f).heap b).size } :
      ExtendibleHashtable δ').modifyBucket b Bucket.clear =
      (({ t with size := t.size - (t.heap b).size } :
        ExtendibleHashtable δ).modifyBucket b Bucket.clear).map f :=
    map_modifyBucket (t := { t with size := t.size - (t.heap b).size }) (g := Bucket.clear)
      fun _ => rfl
  rw [hmodify]
  show Matches _ (((t.heap b).pages.map (Page.map f)).foldlM insert' _) _
  rw [List.foldlM_map]
  refine Matches.foldlM (fun p t' t ht => ?_) _ rfl
  subst ht
  exact hinsert t p

theorem map_splitBucket {insert : ExtendibleHashtable δ → Page δ → Outcome (ExtendibleHashtable δ)}
    {insert' : ExtendibleHashtable δ' → Page δ' → Outcome (ExtendibleHashtable δ')}
    (hinsert : ∀ t p, Blind f (insert' (t.map f) (p.map f)) (insert t p))
    (t : ExtendibleHashtable δ) (bucketId : List Bool) :
    Blind f (splitBucket insert' (t.map f) bucketId) (splitBucket insert t bucketId) := by
  rw [splitBucket, splitBucket]
  refine (Matches.of_eq (x := (t.map f).bucketAt _) (y := t.bucketAt _) rfl).bind ?_
  rintro overflow _ - - rfl
  have hmodify : (t.map f).modifyBucket overflow Bucket.incrementLocalDepth =
      (t.modifyBucket overflow Bucket.incrementLocalDepth).map f := map_modifyBucket fun _ => rfl
  simp only [hmodify]
  generalize t.modifyBucket overflow Bucket.incrementLocalDepth = t
  refine (Matches.of_eq (x := (t.map f).bucketAt _) (y := t.bucketAt _) rfl).bind ?_
  rintro atNew _ - - rfl
  refine (Matches.of_eq (x := (t.map f).bucketAt _) (y := t.bucketAt _) rfl).bind ?_
  rintro atPair _ - - rfl
  by_cases hshared : atNew = atPair
  · have hheap : Function.update (t.map f).heap (t.map f).allocated
        (.new ((t.map f).heap overflow).localDepth) = Bucket.map f ∘
          Function.update t.heap t.allocated (.new (t.heap overflow).localDepth) :=
      (Function.comp_update (Bucket.map f) t.heap t.allocated (.new _)).symm
    simp only [if_pos hshared, hheap]
    exact map_rehash hinsert
      { t with
        buckets := t.buckets.set
          (if bucketId.length < t.globalDepth then true :: bucketId else true :: bucketId.tail)
          t.allocated
        heap := Function.update t.heap t.allocated (.new (t.heap overflow).localDepth)
        allocated := t.allocated + 1 } overflow
  · simp only [if_neg hshared]
    exact map_rehash hinsert t overflow

theorem map_insertPageFuel (fuel : ℕ) (t : ExtendibleHashtable δ) (p : Page δ) :
    Blind f (insertPageFuel xxh64 fuel (t.map f) (p.map f)) (insertPageFuel xxh64 fuel t p) := by
  induction fuel generalizing t p with
  | zero => exact .error _
  | succ fuel ih =>
    rw [insertPageFuel, insertPageFuel]
    refine (Matches.of_eq (x := (t.map f).bucketAt _) (y := t.bucketAt _) rfl).bind ?_
    rintro bucket _ - - rfl
    have hmodify : (t.map f).modifyBucket bucket (·.insertPage (p.map f)) =
        (t.modifyBucket bucket (·.insertPage p)).map f :=
      map_modifyBucket fun b => Bucket.map_insertPage b p
    simp only [hmodify]
    generalize t.modifyBucket bucket (·.insertPage p) = t'
    have hpushed : ({ t'.map f with size := (t'.map f).size + 1 } : ExtendibleHashtable δ') =
      ({ t' with size := t'.size + 1 } : ExtendibleHashtable δ).map f := rfl
    simp only [hpushed]
    show Matches _ (if ((t'.heap bucket).size > t'.bucketMaxSize ∧
      (t'.heap bucket).localDepth < t'.globalDepth) then _ else _) _
    split_ifs
    · exact map_splitBucket ih _ _
    · exact .ok rfl

theorem map_insertPage (t : ExtendibleHashtable δ) (p : Page δ) :
    Blind f ((t.map f).insertPage xxh64 (p.map f)) (t.insertPage xxh64 p) :=
  map_insertPageFuel (t.globalDepth + 1) t p

theorem map_expandDirectory (t : ExtendibleHashtable δ) :
    (t.map f).expandDirectory = (t.expandDirectory.1, t.expandDirectory.2.map f) := by
  rw [expandDirectory, expandDirectory]
  by_cases hmax : t.globalDepth = t.maxDepth
  · have hmax' : (t.map f).globalDepth = (t.map f).maxDepth := hmax
    rw [if_pos hmax, if_pos hmax']
  · have hmax' : ¬ (t.map f).globalDepth = (t.map f).maxDepth := hmax
    rw [if_neg hmax, if_neg hmax']
    rfl

end ExtendibleHashtable

namespace BufferPool

theorem map_get (pool : BufferPool δ) (pageId : String) :
    Matches (fun x' x => x' = (x.1.map f, x.2.map f)) ((pool.map f).get xxh64 pageId)
      (pool.get xxh64 pageId) := by
  have hpage : (pool.map f).hashtable.getPage xxh64 pageId =
      (pool.hashtable.getPage xxh64 pageId).map (Page.map f) := ExtendibleHashtable.map_getPage ..
  rw [get, get, hpage]
  cases pool.hashtable.getPage xxh64 pageId with
  | none => exact .ok rfl
  | some p =>
    refine (Matches.of_eq (x := (pool.map f).evictionPolicy.update p.pageId)
      (y := pool.evictionPolicy.update p.pageId) rfl).bind ?_
    rintro l _ - - rfl
    exact .ok rfl

/-- The same outcome, with other contents. -/
def Blind (f : δ → δ') : Outcome (BufferPool δ') → Outcome (BufferPool δ) → Prop :=
  Matches fun pool' pool => pool' = pool.map f

theorem map_evict (pool : BufferPool δ) :
    Blind f ((pool.map f).evict xxh64) (pool.evict xxh64) := by
  refine (Matches.of_eq (x := (pool.map f).evictionPolicy.evict)
    (y := pool.evictionPolicy.evict) rfl).bind ?_
  rintro ⟨key, l⟩ _ - - rfl
  have hpage : (pool.map f).hashtable.getPage xxh64 key =
      (pool.hashtable.getPage xxh64 key).map (Page.map f) := ExtendibleHashtable.map_getPage ..
  simp only [hpage]
  cases pool.hashtable.getPage xxh64 key with
  | none => exact .error _
  | some p =>
    refine (ExtendibleHashtable.map_removePage (t := pool.hashtable) p).bind ?_
    rintro _ t - - rfl
    exact .ok rfl

theorem map_makeRoom (pool : BufferPool δ) :
    Blind f ((pool.map f).makeRoom xxh64) (pool.makeRoom xxh64) := by
  have hexpand : (pool.map f).hashtable.expandDirectory = (pool.hashtable.expandDirectory.1,
      pool.hashtable.expandDirectory.2.map f) := ExtendibleHashtable.map_expandDirectory _
  rw [makeRoom, makeRoom, hexpand]
  show Matches _ (if overThreshold pool.hashtable.size.toNat pool.hashtable.getNumDirectory
    then _ else _) _
  split_ifs
  · show Matches _ (if pool.hashtable.expandDirectory.1 then _ else _)
      (if pool.hashtable.expandDirectory.1 then _ else _)
    split_ifs
    · exact .ok rfl
    · exact map_evict { pool with hashtable := pool.hashtable.expandDirectory.2 }
  · exact .ok rfl

theorem map_insert (pool : BufferPool δ) (pageId : String) (data : δ) :
    Blind f ((pool.map f).insert xxh64 pageId (f data)) (pool.insert xxh64 pageId data) := by
  refine (map_makeRoom pool).bind ?_
  rintro _ pool₁ - - rfl
  refine (ExtendibleHashtable.map_insertPage pool₁.hashtable
    ⟨pool₁.allocated, pageId, data⟩).bind ?_
  rintro _ t - - rfl
  exact .ok rfl

theorem map_remove (pool : BufferPool δ) (pageId : String) :
    Blind f ((pool.map f).remove xxh64 pageId) (pool.remove xxh64 pageId) := by
  have hpage : (pool.map f).hashtable.getPage xxh64 pageId =
      (pool.hashtable.getPage xxh64 pageId).map (Page.map f) := ExtendibleHashtable.map_getPage ..
  rw [remove, remove, hpage]
  cases pool.hashtable.getPage xxh64 pageId with
  | none => exact .ok rfl
  | some p =>
    refine (ExtendibleHashtable.map_removePage (t := pool.hashtable) p).bind ?_
    rintro _ t - - rfl
    refine (Matches.of_eq (x := (pool.map f).evictionPolicy.remove pageId)
      (y := pool.evictionPolicy.remove pageId) rfl).bind ?_
    rintro l _ - - rfl
    exact .ok rfl

end BufferPool

end MiniKvs
