import Mathlib.Data.Set.List
import MiniKvs.Store.Runs

/-! Opening a directory that a store has closed. The number in the name of an SST
is found again, whatever the directory is called, as long as the text of an SST
name is not in its path; and the levels come out the same in every order in which
the directory may be listed. -/

namespace MiniKvs

open Lib

namespace Level

/-! ### The number in a name -/

theorem isPrefixOf_append_slash {pattern : List Char} (hp : '/' ∉ pattern) (a b : List Char) :
    pattern.isPrefixOf (a ++ '/' :: b) = pattern.isPrefixOf a := by
  induction pattern generalizing a with
  | nil => rw [List.isPrefixOf_nil_left, List.isPrefixOf_nil_left]
  | cons c pattern ih =>
    rw [List.mem_cons, not_or] at hp
    cases a with
    | nil =>
      have hne : (c == '/') = false := beq_false_of_ne (Ne.symm hp.1)
      rw [List.nil_append, List.isPrefixOf_cons_cons, hne, Bool.false_and]
      rfl
    | cons x a => rw [List.cons_append, List.isPrefixOf, List.isPrefixOf, ih hp.2]

theorem takeWhile_append_slash {p : Char → Bool} (hp : p '/' = false) (a b : List Char) :
    (a ++ '/' :: b).takeWhile p = a.takeWhile p ∧
      (a ++ '/' :: b).dropWhile p = a.dropWhile p ++ '/' :: b := by
  induction a with
  | nil => simp [hp]
  | cons c a ih =>
    rw [List.cons_append, List.takeWhile_cons, List.takeWhile_cons, List.dropWhile_cons,
      List.dropWhile_cons, ih.1, ih.2]
    split_ifs
    · exact ⟨rfl, rfl⟩
    · exact ⟨rfl, rfl⟩

/-- A match does not reach over a slash. -/
theorem matchName_append_slash (a b : List Char) : matchName (a ++ '/' :: b) = matchName a := by
  unfold matchName
  rw [isPrefixOf_append_slash (by decide)]
  by_cases h : "sst_".toList.isPrefixOf a = true
  · have hlen : 4 ≤ a.length := (List.isPrefixOf_iff_prefix.mp h).length_le
    rw [if_pos h, if_pos h, List.drop_append_of_le_length hlen]
    obtain ⟨ht, hd⟩ := takeWhile_append_slash (p := Char.isDigit) (by decide) (a.drop 4) b
    rw [ht, hd, isPrefixOf_append_slash (by decide)]
  · rw [if_neg h, if_neg h]

theorem searchName_append_slash (a b : List Char) :
    searchName (a ++ '/' :: b) = (searchName a).or (searchName b) := by
  induction a with
  | nil =>
    have hnone : matchName ('/' :: b) = none := matchName_append_slash [] b
    rw [List.nil_append, searchName, searchName, hnone]
  | cons c a ih =>
    rw [List.cons_append, searchName, ← List.cons_append, matchName_append_slash, ih, searchName,
      Option.or_assoc]

/-- A match lies in the directory path or in the name. -/
theorem searchName_joinPath (path name : String) : searchName (joinPath path name).toList =
    (searchName path.toList).or (searchName name.toList) := by
  unfold joinPath
  split_ifs with h
  · rw [String.toList_append]
    rcases h with rfl | h
    · rfl
    · obtain ⟨d, hd⟩ := List.getLast?_eq_some_iff.mp h
      rw [hd, List.append_assoc, List.singleton_append, searchName_append_slash,
        searchName_append_slash, searchName, Option.or_none]
  · rw [String.toList_append, String.toList_append, List.append_assoc,
      show "/".toList ++ name.toList = '/' :: name.toList from rfl, searchName_append_slash]

theorem isDigit_of_mem_repr {n : ℕ} {c : Char} (h : c ∈ n.repr.toList) : c.isDigit = true := by
  rw [Nat.toList_repr] at h
  exact Nat.isDigit_of_mem_toDigits (by norm_num) (by norm_num) h

/-- The digits of a name that the pattern matches as a whole. -/
theorem searchName_digits {num : List Char} (hne : num ≠ [])
    (hdigits : ∀ c ∈ num, c.isDigit = true) :
    searchName ("sst_".toList ++ (num ++ ".dat".toList)) = some num := by
  have hdot : (".dat".toList).takeWhile Char.isDigit = [] ∧
      (".dat".toList).dropWhile Char.isDigit = ".dat".toList := by decide
  have hmatch : matchName ("sst_".toList ++ (num ++ ".dat".toList)) = some num := by
    unfold matchName
    rw [if_pos (by simp), List.drop_left' (by decide), List.takeWhile_append_of_pos hdigits,
      List.dropWhile_append_of_pos hdigits, hdot.1, hdot.2, List.append_nil]
    simp [hne]
  rw [show "sst_".toList ++ (num ++ ".dat".toList) =
    's' :: ("st_".toList ++ (num ++ ".dat".toList)) from rfl] at hmatch ⊢
  rw [searchName, hmatch]
  rfl

theorem searchName_sst (n : ℕ) :
    searchName ("sst_" ++ toString n ++ ".dat").toList = some n.repr.toList := by
  have hlist : ("sst_" ++ toString n ++ ".dat").toList =
      "sst_".toList ++ (n.repr.toList ++ ".dat".toList) := by
    rw [String.toList_append, String.toList_append, List.append_assoc]
    rfl
  rw [hlist, searchName_digits (by simp) fun c => isDigit_of_mem_repr]

/-- The path of an SST gives its number back. -/
theorem extractNumberFromFilename_sstPath {dbPath : String} (hp : searchName dbPath.toList = none)
    {n : ℕ} (hn : n < 2147483648) : extractNumberFromFilename (sstPath dbPath n) = .ok (n : ℤ) := by
  have hval : Nat.ofDigitChars 10 n.repr.toList 0 = n := by
    rw [Nat.toList_repr, Nat.ofDigitChars_ten_toDigits]
  rw [extractNumberFromFilename, sstPath, searchName_joinPath, hp, Option.none_or, searchName_sst]
  simp only [stoi, hval, if_pos hn]

/-- The level that an SST is loaded into. -/
def foundLevel (path : String) : Option ℕ :=
  match extractNumberFromFilename path with
  | .ok sstNum => some (sstNum.tdiv sizeRatio).toNat
  | .error _ => none

theorem loadIntoLsmTree_eq_ok {levels levels' : List Level} {sst : String} :
    loadIntoLsmTree levels sst = .ok levels' ↔ ∃ level, foundLevel sst = some level ∧
      (levels ++ List.replicate (level + 1 - levels.length) (⟨[]⟩ : Level)).modify level
        (push sst) = levels' := by
  unfold loadIntoLsmTree foundLevel
  cases extractNumberFromFilename sst with
  | error e => simp
  | ok sstNum => simp

theorem foundLevel_sstPath {dbPath : String} (hp : searchName dbPath.toList = none) {i : ℕ}
    (hi : i < 1073741824) : foundLevel (sstPath dbPath (2 * i)) = some i := by
  rw [foundLevel, extractNumberFromFilename_sstPath hp (by omega)]
  simp only [Option.some.injEq]
  rw [← Int.ofNat_tdiv, Int.toNat_natCast]
  exact Nat.mul_div_cancel_left i two_pos

/-! ### Loading in any order -/

/-- How many levels SSTs of the levels `is` need. -/
def depth (is : List ℕ) : ℕ := is.foldl (fun n i => max n (i + 1)) 0

theorem depth_le {is : List ℕ} {n : ℕ} : depth is ≤ n ↔ ∀ i ∈ is, i < n := by
  have hfold : ∀ m, is.foldl (fun n i => max n (i + 1)) m ≤ n ↔ m ≤ n ∧ ∀ i ∈ is, i < n := by
    induction is with
    | nil => simp
    | cons i is ih =>
      intro m
      rw [List.foldl_cons, ih, List.forall_mem_cons, max_le_iff, Nat.succ_le_iff, and_assoc]
  exact (hfold 0).trans (and_iff_right n.zero_le)

variable (dbPath : String)

/-- The levels with one SST in each of the levels `is`. -/
def spread (is : List ℕ) : List Level :=
  (List.range (depth is)).map fun j => ⟨if j ∈ is then [sstPath dbPath (2 * j)] else []⟩

variable {dbPath}

theorem spread_append_replicate (is : List ℕ) (n : ℕ) :
    spread dbPath is ++ List.replicate (n - (spread dbPath is).length) ⟨[]⟩ =
      (List.range (max (depth is) n)).map
        fun j => ⟨if j ∈ is then [sstPath dbPath (2 * j)] else []⟩ := by
  have hlen : (spread dbPath is).length = depth is := by
    rw [spread, List.length_map, List.length_range]
  apply List.ext_getElem
  · simp only [hlen, List.length_append, List.length_replicate, List.length_map, List.length_range]
    omega
  · intro j h1 h2
    rw [List.getElem_map, List.getElem_range, List.getElem_append]
    split_ifs with hlt hmem hmem
    · simp only [spread, List.getElem_map, List.getElem_range, if_pos hmem]
    · simp only [spread, List.getElem_map, List.getElem_range, if_neg hmem]
    · exact absurd (depth_le.mp le_rfl j hmem) (hlen ▸ hlt)
    · exact List.getElem_replicate _

theorem modify_map_range {α : Type} (f : ℕ → α) (g : α → α) (n i : ℕ) :
    ((List.range n).map f).modify i g =
      (List.range n).map fun j => if i = j then g (f j) else f j := by
  apply List.ext_getElem
  · rw [List.length_modify, List.length_map, List.length_map]
  · intro j h1 h2
    simp only [List.getElem_modify, List.getElem_map, List.getElem_range]

/-- An SST whose level has none yet. -/
theorem loadIntoLsmTree_spread {is : List ℕ} {i : ℕ}
    (hfound : foundLevel (sstPath dbPath (2 * i)) = some i) (hnew : i ∉ is) :
    loadIntoLsmTree (spread dbPath is) (sstPath dbPath (2 * i)) =
      .ok (spread dbPath (is ++ [i])) := by
  have hdepth : depth (is ++ [i]) = max (depth is) (i + 1) := by
    rw [depth, List.foldl_append]
    rfl
  refine loadIntoLsmTree_eq_ok.mpr ⟨i, hfound, ?_⟩
  rw [spread_append_replicate, modify_map_range, spread, hdepth]
  refine List.map_congr_left fun j _ => ?_
  rcases eq_or_ne i j with rfl | hij
  · simp [push, hnew]
  · simp [hij, Ne.symm hij]

theorem foldlM_loadIntoLsmTree : ∀ (is js : List ℕ), (is ++ js).Nodup →
    (∀ i ∈ js, foundLevel (sstPath dbPath (2 * i)) = some i) →
    (js.map fun i => sstPath dbPath (2 * i)).foldlM loadIntoLsmTree (spread dbPath is) =
      .ok (spread dbPath (is ++ js))
  | is, [], _, _ => by rw [List.append_nil]; rfl
  | is, j :: js, hnodup, hfound => by
    have hj : j ∉ is := fun hm =>
      (List.nodup_append.mp hnodup).2.2 j hm j List.mem_cons_self rfl
    rw [List.map_cons, List.foldlM_cons, loadIntoLsmTree_spread (hfound j (by simp)) hj, ok_bind,
      foldlM_loadIntoLsmTree (is ++ [j]) js (by simpa using hnodup)
        fun i hi => hfound i (List.mem_cons_of_mem _ hi), List.append_assoc, List.singleton_append]

/-- The levels at rest are spread over the bits that are set. -/
theorem spread_eq {is : List ℕ} {k : ℕ} (h : ∀ i, i ∈ is ↔ k.testBit i = true) :
    spread dbPath is = levelsOf dbPath 0 k.bits := by
  have hdepth : depth is = k.bits.length := by
    refine eq_of_forall_ge_iff fun n => ?_
    rw [depth_le, Nat.size_eq_bits_len, Nat.size_le]
    constructor
    · intro hlt
      refine Nat.lt_pow_two_of_testBit k fun i hi => ?_
      rw [Bool.eq_false_iff, Ne, ← h]
      exact fun hm => absurd (hlt i hm) hi.not_gt
    · intro hlt i hi
      by_contra hge
      rw [h, Nat.testBit_lt_two_pow (hlt.trans_le (Nat.pow_le_pow_right two_pos (by omega)))] at hi
      cases hi
  apply List.ext_getElem
  · rw [spread, List.length_map, List.length_range, length_levelsOf, hdepth]
  · intro i h1 h2
    have hget := @getD_levelsOf dbPath 0 k.bits i
    rw [List.getD_eq_getElem _ _ h2, Nat.zero_add, ← Nat.testBit_eq_inth] at hget
    rw [hget]
    simp only [spread, List.getElem_map, List.getElem_range, h]

end Level

open Level

variable {xxh64 : XXH64} {sort : StdSort} {dbPath : String} {slots : List (Option Sst)}
  {w w' : World} {config config' : Config}

/-! ### The directory of a store at rest -/

/-- A fresh store with the levels of another. -/
def World.restarted (w : World) (config : Config) : World :=
  { w with store := { KVStore.new config with
    dbPath := w.store.dbPath, levels := w.store.levels } }

namespace AtRest

theorem mem_keys (h : AtRest xxh64 dbPath slots w) {path : String} :
    path ∈ w.disk.keys ↔ ∃ i, (flushes w.log).testBit i = true ∧ path = sstPath dbPath (2 * i) := by
  rw [h.isCounter.files, h.mem_ssts]
  constructor
  · rintro ⟨x, hx, rfl⟩
    obtain ⟨i, hi, hn⟩ := mem_listed.mp hx
    exact ⟨i, h.testBit_iff.mpr ⟨_, hi⟩, by rw [hn, Nat.zero_add]⟩
  · rintro ⟨i, hi, rfl⟩
    obtain ⟨x, hx⟩ := h.testBit_iff.mp hi
    exact ⟨(2 * i, x), mem_listed.mpr ⟨i, hx, by rw [Nat.zero_add]⟩, rfl⟩

/-- Loading the files in any order gives the levels, if each level is found. -/
theorem load (h : AtRest xxh64 dbPath slots w)
    (hfound : ∀ i, (flushes w.log).testBit i = true → foundLevel (sstPath dbPath (2 * i)) = some i)
    {directory : List String} (hd : directory.Perm w.disk.keys) :
    directory.foldlM loadIntoLsmTree [] = .ok w.store.levels := by
  obtain ⟨is, rfl⟩ : directory ∈ Set.range (List.map fun i => sstPath dbPath (2 * i)) := by
    rw [Set.range_list_map]
    intro path hpath
    obtain ⟨i, -, rfl⟩ := h.mem_keys.mp (hd.mem_iff.mp hpath)
    exact ⟨i, rfl⟩
  have his : ∀ i, i ∈ is ↔ (flushes w.log).testBit i = true := by
    intro i
    have hinj : Function.Injective fun i => sstPath dbPath (2 * i) := fun a b he => by
      have := sstPath_inj.mp he
      omega
    rw [← List.mem_map_of_injective hinj, hd.mem_iff, h.mem_keys]
    constructor
    · rintro ⟨j, hj, he⟩
      exact hinj he ▸ hj
    · exact fun hi => ⟨i, hi, rfl⟩
  have hnodup : is.Nodup := (hd.nodup_iff.mpr w.disk.keys_nodup).of_map _
  have hload := foldlM_loadIntoLsmTree [] is hnodup fun i hi => hfound i ((his i).mp hi)
  rw [List.nil_append, spread_eq his, ← h.bits, ← h.levels] at hload
  exact hload

/-- In a path without the text of an SST name each level is found. -/
theorem found (h : AtRest xxh64 dbPath slots w) (hp : searchName dbPath.toList = none)
    (hlen : slots.length ≤ 1073741824) {i : ℕ} (hi : (flushes w.log).testBit i = true) :
    foundLevel (sstPath dbPath (2 * i)) = some i := by
  obtain ⟨x, hx⟩ := h.testBit_iff.mp hi
  exact foundLevel_sstPath hp (((List.getElem?_eq_some_iff.mp hx).1).trans_le hlen)

theorem reopened (h : AtRest xxh64 dbPath slots w)
    (hfound : ∀ i, (flushes w.log).testBit i = true → foundLevel (sstPath dbPath (2 * i)) = some i)
    {directory : List String} (hd : directory.Perm w.disk.keys) (config : Config) :
    w.reopened config directory = .ok (w.restarted config) := by
  rw [World.reopened, KVStore.open]
  simp only [Option.getD_some]
  rw [show (KVStore.new config).levels = [] from rfl, h.load hfound hd]
  rfl

theorem restarted (h : AtRest xxh64 dbPath slots w) (config : Config) :
    AtRest xxh64 dbPath slots (w.restarted config) where
  path := h.path
  settled :=
    { h.settled with
      stores := h.stores.with_pool (.new config.initialSize_le config.maxSize_lt) }
  bits := h.bits
  log := h.log

end AtRest

/-! ### What the closed store would have done -/

/-- A lookup changes at most the pool. -/
theorem World.get_pool {key value : Uint32} (hw : w.get xxh64 key = .ok (value, w')) :
    ∃ pool, w' = { w with store := { w.store with bufferPool := pool } } := by
  simp only [World.get] at hw
  split_ifs at hw
  · cases hw; exact ⟨w.store.bufferPool, rfl⟩
  · cases hw; exact ⟨w.store.bufferPool, rfl⟩
  · obtain ⟨⟨v, pool⟩, -, hw⟩ := bind_eq_ok.mp hw
    cases hw
    exact ⟨pool, rfl⟩

theorem World.scan_pool {startKey endKey : Uint32} {result : List Entry}
    (hw : w.scan xxh64 sort startKey endKey = .ok (result, w')) :
    ∃ pool, w' = { w with store := { w.store with bufferPool := pool } } := by
  obtain ⟨⟨found, pool⟩, -, hw⟩ := bind_eq_ok.mp hw
  cases hw
  exact ⟨pool, rfl⟩

/-- The counters of a store on a directory of its own. -/
structure Tracked (config : Config) (w : World) : Prop where
  memtableSize : w.store.memtableSize = config.memtableSize
  sstCount : w.store.sstCount = flushes w.log
  sstCount_lt : w.store.sstCount < 2147483648
  empty : w.store.memtable = .null → w.store.currentMemtableEntries = 0

namespace Tracked

theorem close (ht : Tracked config w) (h : AtRest xxh64 dbPath slots w)
    (hw : w.writeMemtableToSst xxh64 = .ok w') :
    Tracked config w' ∧ w'.store.memtable = .null := by
  by_cases hne : AVLTree.entries w.store.memtable = []
  · rw [AtRest.write_nil hne] at hw
    cases hw
    exact ⟨ht, AVLTree.entries_eq_nil.mp hne⟩
  · obtain ⟨slots', tree, -, rfl, -, hcount, hlt⟩ := h.write hne hw
    exact ⟨⟨ht.memtableSize, (congrArg (· + 1) ht.sstCount).trans hcount.symm, hlt, fun _ => rfl⟩,
      rfl⟩

/-- A call that only changes the memtable. -/
theorem with_memtable (ht : Tracked config w) {memtable : Node} (hm : memtable ≠ .null)
    (entries : ℕ) : Tracked config { w with store := { w.store with
      memtable := memtable, currentMemtableEntries := entries } } :=
  ⟨ht.memtableSize, ht.sstCount, ht.sstCount_lt, fun h => absurd h hm⟩

theorem with_pool (ht : Tracked config w) (pool : BufferPool PageData) :
    Tracked config { w with store := { w.store with bufferPool := pool } } :=
  ⟨ht.memtableSize, ht.sstCount, ht.sstCount_lt, ht.empty⟩

theorem step (ht : Tracked config w) (h : AtRest xxh64 dbPath slots w) {op : Op} {r : Reply}
    (hw : World.step xxh64 sort op w = .ok (r, w')) : Tracked config w' := by
  cases op with
  | put key value =>
    obtain ⟨w₁, h₁, he⟩ := map_eq_ok.mp hw
    cases he
    obtain ⟨memtable, hm, h₁⟩ := bind_eq_ok.mp h₁
    simp only at h₁
    split_ifs at h₁
    · exact ((ht.with_memtable (AVLTree.put_ne_null hm) _).close (h.with_memtable memtable _) h₁).1
    · cases h₁
      exact ht.with_memtable (AVLTree.put_ne_null hm) _
  | deleteKey key =>
    obtain ⟨w₁, h₁, he⟩ := map_eq_ok.mp hw
    cases he
    obtain ⟨memtable, hm, h₁⟩ := bind_eq_ok.mp h₁
    cases h₁
    exact ht.with_memtable (AVLTree.put_ne_null hm) _
  | get key =>
    obtain ⟨x, h₁, he⟩ := map_eq_ok.mp hw
    cases he
    obtain ⟨pool, hp⟩ := World.get_pool h₁
    exact hp ▸ ht.with_pool pool
  | scan startKey endKey =>
    obtain ⟨x, h₁, he⟩ := map_eq_ok.mp hw
    cases he
    obtain ⟨pool, hp⟩ := World.scan_pool h₁
    exact hp ▸ ht.with_pool pool
  | close =>
    obtain ⟨w₁, h₁, he⟩ := map_eq_ok.mp hw
    cases he
    exact (ht.close h h₁).1

end Tracked

theorem runStore_tracked {ops : List Op} {rs : List Reply}
    (h : runStore xxh64 sort config dbPath ops = .ok (rs, w)) :
    (∃ slots, AtRest xxh64 dbPath slots w) ∧ Tracked config w :=
  run_invariant (World.step xxh64 sort)
    (I := fun w => (∃ slots, AtRest xxh64 dbPath slots w) ∧ Tracked config w)
    (fun _ _ _ _ ⟨⟨_, hs⟩, ht⟩ hw => ⟨hs.step hw, ht.step hs hw⟩)
    ⟨⟨[], .start config dbPath⟩, rfl, rfl, Nat.succ_pos _, fun _ => rfl⟩ h

/-- Two stores that flush at the same times, on trees that have seen equally many flushes. -/
structure Alike (xxh64 : XXH64) (dbPath : String) (v w : World) : Prop where
  left : ∃ slots, AtRest xxh64 dbPath slots v
  right : ∃ slots, AtRest xxh64 dbPath slots w
  memtable : v.store.memtable = w.store.memtable
  entries : v.store.currentMemtableEntries = w.store.currentMemtableEntries
  memtableSize : v.store.memtableSize = w.store.memtableSize
  flushes : flushes v.log = flushes w.log

/-- The log tells nothing but how many flushes there were. -/
theorem AtRest.log_eq {v : World} {slots' : List (Option Sst)} (hv : AtRest xxh64 dbPath slots v)
    (hw : AtRest xxh64 dbPath slots' w) (h : flushes v.log = flushes w.log) : v.log = w.log := by
  rw [hv.log, hw.log, h]

namespace Alike

variable {v v' : World}

theorem close (h : Alike xxh64 dbPath v w) (hv : v.writeMemtableToSst xxh64 = .ok v')
    (hw : w.writeMemtableToSst xxh64 = .ok w') : Alike xxh64 dbPath v' w' := by
  obtain ⟨⟨vs, hvs⟩, ⟨ws, hws⟩, hmem, hentries, hsize, hflushes⟩ := h
  by_cases hne : AVLTree.entries v.store.memtable = []
  · rw [AtRest.write_nil hne] at hv
    rw [AtRest.write_nil (hmem ▸ hne)] at hw
    cases hv
    cases hw
    exact ⟨⟨vs, hvs⟩, ⟨ws, hws⟩, hmem, hentries, hsize, hflushes⟩
  · obtain ⟨vs', vt, -, rfl, hvs', hvc, -⟩ := hvs.write hne hv
    obtain ⟨ws', wt, -, rfl, hws', hwc, -⟩ := hws.write (hmem ▸ hne) hw
    exact ⟨⟨vs', hvs'⟩, ⟨ws', hws'⟩, rfl, rfl, hsize, by rw [hvc, hwc, hflushes]⟩

theorem with_memtable (h : Alike xxh64 dbPath v w) (memtable : Node) (entries : ℕ) :
    Alike xxh64 dbPath
      { v with store := { v.store with
        memtable := memtable, currentMemtableEntries := entries } }
      { w with store := { w.store with
        memtable := memtable, currentMemtableEntries := entries } } := by
  obtain ⟨⟨vs, hvs⟩, ⟨ws, hws⟩, -, -, hsize, hflushes⟩ := h
  exact ⟨⟨vs, hvs.with_memtable _ _⟩, ⟨ws, hws.with_memtable _ _⟩, rfl, rfl, hsize, hflushes⟩

theorem with_pools (h : Alike xxh64 dbPath v w) {p q : BufferPool PageData}
    (hv : ∃ slots, AtRest xxh64 dbPath slots { v with store := { v.store with bufferPool := p } })
    (hw : ∃ slots, AtRest xxh64 dbPath slots { w with store := { w.store with bufferPool := q } }) :
    Alike xxh64 dbPath { v with store := { v.store with bufferPool := p } }
      { w with store := { w.store with bufferPool := q } } :=
  ⟨hv, hw, h.memtable, h.entries, h.memtableSize, h.flushes⟩

/-- The same call on both. -/
theorem step (h : Alike xxh64 dbPath v w) {op : Op} {r r' : Reply}
    (hv : World.step xxh64 sort op v = .ok (r, v'))
    (hw : World.step xxh64 sort op w = .ok (r', w')) :
    Alike xxh64 dbPath v' w' := by
  obtain ⟨vs, hvs⟩ := h.left
  obtain ⟨ws, hws⟩ := h.right
  have hleft := hvs.step hv
  have hright := hws.step hw
  cases op with
  | put key value =>
    obtain ⟨v₁, hv₁, he⟩ := map_eq_ok.mp hv
    cases he
    obtain ⟨w₁, hw₁, he⟩ := map_eq_ok.mp hw
    cases he
    obtain ⟨memtable, hvm, hv₁⟩ := bind_eq_ok.mp hv₁
    obtain ⟨memtable', hwm, hw₁⟩ := bind_eq_ok.mp hw₁
    obtain rfl : memtable = memtable' := by
      rw [h.memtable, hwm] at hvm
      cases hvm
      rfl
    have hput := h.with_memtable memtable (v.store.currentMemtableEntries + 1)
    simp only [h.entries, h.memtableSize] at hput hv₁ hw₁
    split_ifs at hv₁ hw₁
    · exact hput.close hv₁ hw₁
    · cases hv₁
      cases hw₁
      exact hput
  | deleteKey key =>
    obtain ⟨v₁, hv₁, he⟩ := map_eq_ok.mp hv
    cases he
    obtain ⟨w₁, hw₁, he⟩ := map_eq_ok.mp hw
    cases he
    obtain ⟨memtable, hvm, hv₁⟩ := bind_eq_ok.mp hv₁
    obtain ⟨memtable', hwm, hw₁⟩ := bind_eq_ok.mp hw₁
    cases hv₁
    cases hw₁
    obtain rfl : memtable = memtable' := by
      rw [h.memtable, hwm] at hvm
      cases hvm
      rfl
    exact ⟨hleft, hright, rfl, h.entries, h.memtableSize, h.flushes⟩
  | get key =>
    obtain ⟨x, hv₁, he⟩ := map_eq_ok.mp hv
    cases he
    obtain ⟨y, hw₁, he⟩ := map_eq_ok.mp hw
    cases he
    obtain ⟨p, hp⟩ := World.get_pool hv₁
    obtain ⟨q, hq⟩ := World.get_pool hw₁
    rw [hp] at hleft ⊢
    rw [hq] at hright ⊢
    exact h.with_pools hleft hright
  | scan startKey endKey =>
    obtain ⟨x, hv₁, he⟩ := map_eq_ok.mp hv
    cases he
    obtain ⟨y, hw₁, he⟩ := map_eq_ok.mp hw
    cases he
    obtain ⟨p, hp⟩ := World.scan_pool hv₁
    obtain ⟨q, hq⟩ := World.scan_pool hw₁
    rw [hp] at hleft ⊢
    rw [hq] at hright ⊢
    exact h.with_pools hleft hright
  | close =>
    obtain ⟨v₁, hv₁, he⟩ := map_eq_ok.mp hv
    cases he
    obtain ⟨w₁, hw₁, he⟩ := map_eq_ok.mp hw
    cases he
    exact h.close hv₁ hw₁

end Alike

/-- `w'` has the tree of `w` and goes on with it as `w` would. Later flushes and
compactions write to the same paths, of which only the number of flushes decides;
and if the memtables are of one size, the same calls flush at the same times. -/
structure Reopens (xxh64 : XXH64) (sort : StdSort) (w w' : World) : Prop where
  levels : w'.store.levels = w.store.levels
  get : ∀ key, w'.getDirect xxh64 key = w.getDirect xxh64 key
  scan : ∀ startKey endKey, w'.scanDirect sort startKey endKey = w.scanDirect sort startKey endKey
  names : ∀ ops ops' rs rs' v v', run (World.step xxh64 sort) ops w = .ok (rs, v) →
    run (World.step xxh64 sort) ops' w' = .ok (rs', v') → flushes v.log = flushes v'.log →
      v.log = v'.log
  calls : w.store.memtableSize = w'.store.memtableSize → ∀ ops rs rs' v v',
    run (World.step xxh64 sort) ops w = .ok (rs, v) →
      run (World.step xxh64 sort) ops w' = .ok (rs', v') → v.log = v'.log

/-- A fresh store on the directory of a closed one, whatever the order in which it is listed. -/
theorem closed_reopens (xxh64 : XXH64) (sort : StdSort) (config config' : Config) {dbPath : String}
    (hp : searchName dbPath.toList = none) (ops : List Op) {rs : List Reply}
    (h : runStore xxh64 sort config dbPath (ops ++ [.close]) = .ok (rs, w))
    {directory : List String} (hd : directory.Perm w.disk.keys) :
    ∃ w', w.reopened config' directory = .ok w' ∧ Reopens xxh64 sort w w' := by
  obtain ⟨⟨slots, hs⟩, ht⟩ := runStore_tracked h
  obtain ⟨rs₁, w₁, rs₂, h₁, h₂, -⟩ := (run_append_eq_ok _).mp h
  obtain ⟨⟨slots₁, hs₁⟩, ht₁⟩ := runStore_tracked h₁
  obtain ⟨r, w₂, rs', h₂, h₃, -⟩ := (run_cons_eq_ok _).mp h₂
  cases h₃
  obtain ⟨w₃, h₂, he⟩ := map_eq_ok.mp h₂
  cases he
  have hnull := (ht₁.close hs₁ h₂).2
  have hlen : slots.length ≤ 31 := by
    rw [← List.length_map (f := Option.isSome), hs.bits, Nat.size_eq_bits_len, Nat.size_le,
      ← ht.sstCount]
    exact ht.sstCount_lt
  have hs' := hs.restarted config'
  have hmem : (w.restarted config').store.memtable = w.store.memtable := hnull.symm
  refine ⟨_, hs.reopened (fun _ => hs.found hp (hlen.trans (by norm_num))) hd config', rfl, ?_,
    ?_, ?_, ?_⟩
  · intro key
    rw [World.getDirect, World.getDirect, hmem]
    rfl
  · intro startKey endKey
    rw [World.scanDirect, World.scanDirect, hmem]
    rfl
  · intro ops₁ ops₂ rs₁ rs₂ v v' hv hv' hflushes
    obtain ⟨_, hv⟩ := hs.run hv
    obtain ⟨_, hv'⟩ := hs'.run hv'
    exact hv.log_eq hv' hflushes
  · intro hsize ops₁ rs₁ rs₂ v v' hv hv'
    have halike : Alike xxh64 dbPath w (w.restarted config') :=
      ⟨⟨_, hs⟩, ⟨_, hs'⟩, hmem.symm, ht.empty hnull, hsize, rfl⟩
    obtain ⟨⟨_, hv⟩, ⟨_, hv'⟩, -, -, -, hflushes⟩ :=
      run_related _ (fun _ _ _ _ _ _ _ h hv hw => h.step hv hw) halike hv hv'
    exact hv.log_eq hv' hflushes

/-- The directory lists the SSTs of two levels, the deeper one first. -/
theorem closed_reopens_three : ∃ w w', w.reopened smallConfig w.disk.keys.reverse = .ok w' ∧
    Reopens constHash .insertion w w' ∧ w.disk.keys = ["/a/sst_0.dat", "/a/sst_2.dat"] := by
  have hrun := eq_ok_okOr ([], ⟨.new smallConfig, .empty, []⟩)
    (x := runStore constHash .insertion smallConfig "/a"
      ([.put 5 7, .put 6 8, .put 5 9] ++ [.close])) (by decide)
  obtain ⟨w', hopen, hw'⟩ := closed_reopens constHash .insertion smallConfig smallConfig
    (by decide) [.put 5 7, .put 6 8, .put 5 9] hrun (List.reverse_perm _)
  exact ⟨_, w', hopen, hw', by decide⟩

end MiniKvs
