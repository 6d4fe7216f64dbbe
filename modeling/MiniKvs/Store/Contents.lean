import MiniKvs.Pool.Coherence
import MiniKvs.Sst.Cached
import MiniKvs.Store.Settling

/-! What the directory holds. Each listed SST has contents: the numbers of the
flushes it was made from, and the entries it is built of. A flush adds an SST, a
compaction replaces two of them by one, and the buffer pool only ever holds pages
of the SSTs that are there. -/

namespace MiniKvs

open Lib BTreeNode BufferPool

/-! ### Paths -/

theorem joinPath_inj {path a b : String} : joinPath path a = joinPath path b ↔ a = b := by
  constructor
  · intro h
    have hl := congrArg String.toList h
    unfold joinPath at hl
    split_ifs at hl
    · simp only [String.toList_append, List.append_cancel_left_eq] at hl
      exact String.toList_inj.mp hl
    · simp only [String.toList_append, List.append_assoc, List.append_cancel_left_eq] at hl
      exact String.toList_inj.mp hl
  · rintro rfl; rfl

theorem sstPath_inj {dbPath : String} {m n : ℕ} : sstPath dbPath m = sstPath dbPath n ↔ m = n := by
  rw [sstPath, sstPath, joinPath_inj]
  constructor
  · intro h
    have hl := congrArg String.toList h
    simp only [String.toList_append, List.append_assoc, List.append_cancel_left_eq,
      List.append_cancel_right_eq, Nat.toString_eq_repr, Nat.toList_repr] at hl
    have hval := congrArg (fun ds => Nat.ofDigitChars 10 ds 0) hl
    simpa only [Nat.ofDigitChars_ten_toDigits] using hval
  · rintro rfl; rfl

/-! ### The pages of the directory -/

namespace Disk

variable {disk : Disk} {path : String} {file : File}

theorem read_eq_ok : disk.read path = .ok file ↔ disk.find path = some file := by
  rw [Disk.read]
  cases disk.find path with
  | none => simp
  | some f => simp

/-- Page `id` of the directory holds `data`. -/
def Current (disk : Disk) (id : String) (data : PageData) : Prop :=
  ∃ path file offset, disk.find path = some file ∧ id = Page.generatePageId path offset ∧
    file.page offset = some data

theorem current_backs (h : disk.find path = some file) : Backs disk.Current path file := by
  intro offset data
  constructor
  · rintro ⟨path', file', offset', hf, hid, hp⟩
    obtain ⟨rfl, rfl⟩ := Page.generatePageId_inj.mp hid
    rw [h, Option.some.injEq] at hf
    exact hf ▸ hp
  · exact fun hp => ⟨path, file, offset, h, rfl, hp⟩

theorem current_set {file' : File} (h : disk.find path = none) {id : String} {data : PageData}
    (hc : disk.Current id data) : Disk.Current (disk.set path file') id data := by
  obtain ⟨p, f, o, hf, hid, hp⟩ := hc
  refine ⟨p, f, o, ?_, hid, hp⟩
  rw [OrdMap.find_set_of_ne _ _ fun he => ?_, hf]
  rw [← he, h] at hf
  cases hf

/-- The ids of the pages of an SST. -/
def pageIds (path : String) (file : File) : List String :=
  (List.range file.numPages).map (Page.generatePageId path)

theorem removePages_eq (xxh64 : XXH64) {a b : String} {fa fb : File} (ha : disk.find a = some fa)
    (hb : disk.find b = some fb) (pool : BufferPool PageData) :
    Level.removePages (.pages xxh64) disk [a, b] pool =
      pool.removeAll xxh64.page (pageIds a fa ++ pageIds b fb) := by
  simp only [Level.removePages, Storage.pages, read_eq_ok.mpr ha, read_eq_ok.mpr hb, ok_bind,
    removeAll, List.foldlM_append, pageIds, List.foldlM_map]
  congr 1
  funext pool
  cases (List.range fb.numPages).foldlM (fun pool i =>
    pool.remove xxh64.page (Page.generatePageId b i)) pool <;> rfl

end Disk

/-! ### The history of an SST -/

/-- The number of flushes, and for every path the flushes whose entries went into its SST. -/
def record : ℕ × (String → List ℕ) → Event → ℕ × (String → List ℕ)
  | (k, f), .flush _ path => (k + 1, Function.update f path [k])
  | (k, f), .compact levels currentLevel path _ =>
    (k, Function.update f path ((levels.getD currentLevel ⟨[]⟩).sstList.flatMap f))

def history (log : List Event) : ℕ × (String → List ℕ) := log.foldl record (0, fun _ => [])

/-- How many flushes there were. -/
def flushes (log : List Event) : ℕ := (history log).1

/-- The flushes that the SST at `path` was produced from. -/
def origin (log : List Event) (path : String) : List ℕ := (history log).2 path

theorem history_concat (log : List Event) (e : Event) :
    history (log ++ [e]) = record (history log) e := by
  rw [history, List.foldl_append]; rfl

theorem flushes_flush (log : List Event) (levels : List Level) (path : String) :
    flushes (log ++ [.flush levels path]) = flushes log + 1 := by
  rw [flushes, history_concat]; rfl

theorem flushes_compact (log : List Event) (levels : List Level) (c : ℕ) (path : String)
    (isLastLevel : Bool) :
    flushes (log ++ [.compact levels c path isLastLevel]) = flushes log := by
  rw [flushes, history_concat]; rfl

theorem flushes_compactEvents (dbPath : String) : ∀ (c : ℕ) (bits : List Bool) (log : List Event),
    flushes (log ++ Level.compactEvents dbPath c bits) = flushes log
  | c, [], log => by simp [Level.compactEvents]
  | c, false :: bits, log => by simp [Level.compactEvents]
  | c, true :: bits, log => by
    rw [Level.compactEvents, List.append_cons, flushes_compactEvents dbPath (c + 1) bits]
    exact flushes_compact ..

theorem origin_flush (log : List Event) (levels : List Level) (path path' : String) :
    origin (log ++ [.flush levels path]) path' =
      if path' = path then [flushes log] else origin log path' := by
  rw [origin, history_concat]
  exact Function.update_apply ..

theorem origin_compact {log : List Event} {levels : List Level} {c : ℕ} {old new : String}
    (hlevel : levels.getD c ⟨[]⟩ = ⟨[old, new]⟩) (path path' : String) (isLastLevel : Bool) :
    origin (log ++ [.compact levels c path isLastLevel]) path' =
      if path' = path then origin log old ++ origin log new else origin log path' := by
  rw [origin, history_concat, record, hlevel]
  simp only [List.flatMap_cons, List.flatMap_nil, List.append_nil]
  exact Function.update_apply ..

/-! ### Contents -/

structure Sst where
  flushes : List ℕ
  entries : List Entry

/-- The SST with number `n` and the contents `x` is in the directory. -/
structure IsStored (xxh64 : XXH64) (dbPath : String) (disk : Disk) (log : List Event) (n : ℕ)
    (x : Sst) : Prop where
  file : ∃ file, disk.find (sstPath dbPath n) = some file ∧ x.entries ≠ [] ∧
    sstOf xxh64 x.entries = .ok file
  origin : origin log (sstPath dbPath n) = x.flushes

/-- The directory holds exactly these SSTs, and the pool only pages of them. -/
structure Stores (xxh64 : XXH64) (dbPath : String) (cs : List (ℕ × Sst)) (disk : Disk)
    (pool : BufferPool PageData) (log : List Event) : Prop where
  nodup : (cs.map Prod.fst).Nodup
  stored : ∀ x ∈ cs, IsStored xxh64 dbPath disk log x.1 x.2
  only : ∀ path file, disk.find path = some file → ∃ x ∈ cs, path = sstPath dbPath x.1
  coherent : Coherent xxh64.page disk.Current pool

/-- What a merge makes of two SSTs. -/
def Merged (isLastLevel : Bool) (old new merged : Sst) : Prop :=
  merged.flushes = old.flushes ++ new.flushes ∧ ∃ fuel,
    old.entries.length + new.entries.length < fuel ∧
      mergeSlots isLastLevel fuel old.entries new.entries = .ok merged.entries

namespace Stores

variable {xxh64 : XXH64} {dbPath : String} {cs : List (ℕ × Sst)} {disk : Disk}
  {pool pool' : BufferPool PageData} {log : List Event}

theorem not_find (h : Stores xxh64 dbPath cs disk pool log) {n : ℕ} (hn : n ∉ cs.map Prod.fst) :
    disk.find (sstPath dbPath n) = none := by
  rw [Option.eq_none_iff_forall_ne_some]
  intro file hf
  obtain ⟨x, hx, he⟩ := h.only _ _ hf
  exact hn (sstPath_inj.mp he ▸ List.mem_map_of_mem hx)

/-- A flush to a free number. -/
theorem flush (h : Stores xxh64 dbPath cs disk pool log) {n : ℕ} (hn : n ∉ cs.map Prod.fst)
    {es : List Entry} {file : File} (hne : es ≠ []) (hfile : sstOf xxh64 es = .ok file)
    (levels : List Level) :
    Stores xxh64 dbPath ((n, ⟨[flushes log], es⟩) :: cs) (disk.set (sstPath dbPath n) file) pool
      (log ++ [.flush levels (sstPath dbPath n)]) where
  nodup := List.nodup_cons.mpr ⟨hn, h.nodup⟩
  stored x hx := by
    rcases List.mem_cons.mp hx with rfl | hx
    · refine ⟨⟨file, OrdMap.find_set_self .., hne, hfile⟩, ?_⟩
      rw [origin_flush, if_pos rfl]
    · obtain ⟨⟨f, hf, hne', hf'⟩, ho⟩ := h.stored x hx
      have hpath : sstPath dbPath x.1 ≠ sstPath dbPath n := fun he =>
        hn (sstPath_inj.mp he ▸ List.mem_map_of_mem hx)
      refine ⟨⟨f, by rw [OrdMap.find_set_of_ne _ _ hpath.symm, hf], hne', hf'⟩, ?_⟩
      rw [origin_flush, if_neg hpath, ho]
  only path f hf := by
    rw [OrdMap.find_set] at hf
    split_ifs at hf with he
    · exact ⟨_, List.mem_cons_self, he.symm⟩
    · obtain ⟨x, hx, he⟩ := h.only path f hf
      exact ⟨x, List.mem_cons_of_mem _ hx, he⟩
  coherent := h.coherent.mono fun _ _ => Disk.current_set (h.not_find hn)

/-- The files of a compaction: the merge of the two, the others as before. -/
theorem find_compactFiles {old new out : String} {isLastLevel : Bool} {disk' : Disk}
    (ho : old ≠ out) (hn : new ≠ out)
    (h : Level.compactFiles xxh64 old new out isLastLevel disk = .ok disk') :
    ∃ fo fn output, disk.find old = some fo ∧ disk.find new = some fn ∧
      mergeSsts xxh64 fo fn isLastLevel = .ok output ∧ ∀ path, disk'.find path =
        if path = old ∨ path = new then none
        else if path = out then some output else disk.find path := by
  obtain ⟨fo, hfo, h⟩ := bind_eq_ok.mp h
  obtain ⟨fn, hfn, h⟩ := bind_eq_ok.mp h
  obtain ⟨output, hm, h⟩ := bind_eq_ok.mp h
  cases h
  rw [Disk.read_eq_ok, OrdMap.find_set_of_ne _ _ ho.symm] at hfo
  rw [Disk.read_eq_ok, OrdMap.find_set_of_ne _ _ hn.symm] at hfn
  refine ⟨fo, fn, output, hfo, hfn, hm, fun path => ?_⟩
  simp only [OrdMap.find_erase, OrdMap.find_set]
  rcases eq_or_ne path new with rfl | h1
  · simp
  rcases eq_or_ne path old with rfl | h2
  · simp
  rw [if_neg h1.symm, if_neg h2.symm, if_neg (not_or.mpr ⟨h2, h1⟩)]
  rcases eq_or_ne path out with rfl | h3
  · simp
  · rw [if_neg h3.symm, if_neg h3, if_neg h3.symm]

/-- A merge of two SSTs builds an SST of what it merges. -/
theorem merged_of_mergeSsts {isLastLevel : Bool} {x y : Sst} {fx fy output : File}
    (hx : x.entries ≠ []) (hy : y.entries ≠ []) (hfx : sstOf xxh64 x.entries = .ok fx)
    (hfy : sstOf xxh64 y.entries = .ok fy) (h : mergeSsts xxh64 fx fy isLastLevel = .ok output) :
    ∃ m, Merged isLastLevel x y m ∧ m.entries ≠ [] ∧ sstOf xxh64 m.entries = .ok output := by
  obtain ⟨fuel, hfuel, hm⟩ := mergeSsts_eq isLastLevel hx hy hfx hfy
  rw [hm] at h
  obtain ⟨slots, hs, hf⟩ := bind_eq_ok.mp h
  exact ⟨⟨x.flushes ++ y.flushes, slots⟩, ⟨rfl, fuel, hfuel, hs⟩, mergeSlots_ne_nil hs, hf⟩

/-- A page of the directory lies within its file. -/
theorem mem_pageIds (h : Stores xxh64 dbPath cs disk pool log) {path : String} {file : File}
    (hf : disk.find path = some file) {offset : ℕ} {data : PageData}
    (hp : file.page offset = some data) :
    Page.generatePageId path offset ∈ Disk.pageIds path file := by
  obtain ⟨x, hx, rfl⟩ := h.only _ _ hf
  obtain ⟨f, hf', hne, hs⟩ := (h.stored x hx).file
  rw [hf, Option.some.injEq] at hf'
  subst hf'
  exact List.mem_map_of_mem (List.mem_range.mpr ((Layout.of_sstOf hne hs).lt_numPages hp))

/-- After a compaction the pages of the two files are gone from the pool, and no page of
the output was in it. -/
theorem coherent_compact (h : Stores xxh64 dbPath cs disk pool log) {old new out : String}
    {fo fn output : File} {disk' : Disk} (hfo : disk.find old = some fo)
    (hfn : disk.find new = some fn) (hout : disk.find out = none)
    (hp : Level.removePages (.pages xxh64) disk [old, new] pool = .ok pool')
    (hfind : ∀ path, disk'.find path = if path = old ∨ path = new then none
      else if path = out then some output else disk.find path) :
    Coherent xxh64.page disk'.Current pool' := by
  rw [Disk.removePages_eq xxh64 hfo hfn] at hp
  refine (h.coherent.removeAll hp).mono fun id data hc => ?_
  obtain ⟨hid, path, file, o, hf, rfl, hpage⟩ := hc
  have hmem := h.mem_pageIds hf hpage
  rw [List.mem_append, not_or] at hid
  have h1 : path ≠ old := by
    rintro rfl
    rw [hfo, Option.some.injEq] at hf
    exact hid.1 (hf ▸ hmem)
  have h2 : path ≠ new := by
    rintro rfl
    rw [hfn, Option.some.injEq] at hf
    exact hid.2 (hf ▸ hmem)
  have h3 : path ≠ out := by
    rintro rfl
    rw [hout] at hf
    cases hf
  exact ⟨path, file, o, by rw [hfind, if_neg (not_or.mpr ⟨h1, h2⟩), if_neg h3, hf], rfl, hpage⟩

/-- A compaction into a free number. -/
theorem compact {old new out c : ℕ} {x y : Sst} {isLastLevel : Bool} {disk' : Disk}
    {levels : List Level}
    (h : Stores xxh64 dbPath ((new, y) :: (old, x) :: cs) disk pool log)
    (hout : out ∉ (((new, y) :: (old, x) :: cs).map Prod.fst))
    (hlevel : levels.getD c ⟨[]⟩ = ⟨[sstPath dbPath old, sstPath dbPath new]⟩)
    (hp : Level.removePages (.pages xxh64) disk [sstPath dbPath old, sstPath dbPath new] pool =
      .ok pool')
    (hd : Level.compactFiles xxh64 (sstPath dbPath old) (sstPath dbPath new) (sstPath dbPath out)
      isLastLevel disk = .ok disk') :
    ∃ m, Merged isLastLevel x y m ∧ Stores xxh64 dbPath ((out, m) :: cs) disk' pool'
      (log ++ [.compact levels c (sstPath dbPath out) isLastLevel]) := by
  have hfree := h.not_find hout
  simp only [List.map_cons, List.mem_cons, not_or] at hout
  obtain ⟨hon, hoo, hout⟩ := hout
  have hno : sstPath dbPath new ≠ sstPath dbPath out := fun he => hon (sstPath_inj.mp he).symm
  have hoo' : sstPath dbPath old ≠ sstPath dbPath out := fun he => hoo (sstPath_inj.mp he).symm
  obtain ⟨fo, fn, output, hfo, hfn, hm, hfind⟩ := find_compactFiles hoo' hno hd
  obtain ⟨⟨fn', hfn', hne, hsn⟩, horn⟩ := h.stored (new, y) (by simp)
  obtain ⟨⟨fo', hfo', heo, hso⟩, horo⟩ := h.stored (old, x) (by simp)
  obtain rfl : fn' = fn := Option.some.inj (hfn'.symm.trans hfn)
  obtain rfl : fo' = fo := Option.some.inj (hfo'.symm.trans hfo)
  obtain ⟨m, hmerged, hme, hsm⟩ := merged_of_mergeSsts heo hne hso hsn hm
  have hnodup := h.nodup
  simp only [List.map_cons, List.nodup_cons, List.mem_cons, not_or] at hnodup
  obtain ⟨⟨-, hn⟩, ho, hcs⟩ := hnodup
  have hother : ∀ z ∈ cs, sstPath dbPath z.1 ≠ sstPath dbPath old ∧
      sstPath dbPath z.1 ≠ sstPath dbPath new ∧ sstPath dbPath z.1 ≠ sstPath dbPath out := by
    intro z hz
    have hz' := List.mem_map_of_mem (f := Prod.fst) hz
    refine ⟨fun he => ?_, fun he => ?_, fun he => ?_⟩
    · exact ho (sstPath_inj.mp he ▸ hz')
    · exact hn (sstPath_inj.mp he ▸ hz')
    · exact hout (sstPath_inj.mp he ▸ hz')
  refine ⟨m, hmerged, List.nodup_cons.mpr ⟨hout, hcs⟩, fun z hz => ?_, fun path file hf => ?_, ?_⟩
  · rcases List.mem_cons.mp hz with rfl | hz
    · refine ⟨⟨output, ?_, hme, hsm⟩, ?_⟩
      · rw [hfind, if_neg (not_or.mpr ⟨hoo'.symm, hno.symm⟩), if_pos rfl]
      · rw [origin_compact hlevel, if_pos rfl, hmerged.1]
        exact congrArg₂ _ horo horn
    · obtain ⟨⟨f, hf, hz'⟩, horz⟩ := h.stored z (by simp [hz])
      obtain ⟨h1, h2, h3⟩ := hother z hz
      refine ⟨⟨f, ?_, hz'⟩, ?_⟩
      · rw [hfind, if_neg (not_or.mpr ⟨h1, h2⟩), if_neg h3, hf]
      · rw [origin_compact hlevel, if_neg h3, horz]
  · rw [hfind] at hf
    split_ifs at hf with h1 h2
    · exact ⟨_, List.mem_cons_self, h2⟩
    · obtain ⟨z, hz, rfl⟩ := h.only path file hf
      simp only [List.mem_cons] at hz
      rcases hz with rfl | rfl | hz
      · exact absurd (.inr rfl) h1
      · exact absurd (.inl rfl) h1
      · exact ⟨z, List.mem_cons_of_mem _ hz, rfl⟩
  · exact h.coherent_compact hfo hfn hfree hp hfind

/-! ### Reading -/

theorem layout (h : Stores xxh64 dbPath cs disk pool log) {path : String} {file : File}
    (hf : disk.find path = some file) : ∃ leaves, Layout xxh64 leaves file := by
  obtain ⟨x, hx, rfl⟩ := h.only _ _ hf
  obtain ⟨f, hf', hne, hs⟩ := (h.stored x hx).file
  rw [hf, Option.some.injEq] at hf'
  exact ⟨_, Layout.of_sstOf hne (hf' ▸ hs)⟩

/-- Reads change only the pool. -/
theorem with_pool (h : Stores xxh64 dbPath cs disk pool log)
    (hc : Coherent xxh64.page disk.Current pool') : Stores xxh64 dbPath cs disk pool' log :=
  ⟨h.nodup, h.stored, h.only, hc⟩

/-- A lookup in one SST returns what the file says and leaves the pool coherent. -/
theorem searchValueByKey (h : Stores xxh64 dbPath cs disk pool log) {path : String} {file : File}
    {key value : Uint32} (hf : disk.find path = some file)
    (hr : BTreeNode.searchValueByKey xxh64 key path file pool = .ok (value, pool')) :
    value = lookupValue xxh64 file key ∧ Stores xxh64 dbPath cs disk pool' log := by
  obtain ⟨leaves, hl⟩ := h.layout hf
  obtain ⟨hv, hc⟩ := hl.search_ok (poolSource_reads (Disk.current_backs hf)) h.coherent hr
  exact ⟨hv, h.with_pool hc⟩

theorem scan (h : Stores xxh64 dbPath cs disk pool log) {path : String} {file : File}
    {startKey endKey : Uint32} {result : List Entry} (hf : disk.find path = some file)
    (hr : BTreeNode.scan xxh64 startKey endKey path file pool = .ok (result, pool')) :
    result = scanValue file startKey endKey ∧ Stores xxh64 dbPath cs disk pool' log := by
  obtain ⟨leaves, hl⟩ := h.layout hf
  obtain ⟨hv, hc⟩ := hl.scanFrom_ok (poolSource_reads (Disk.current_backs hf)) h.coherent hr
  exact ⟨hv, h.with_pool hc⟩

end Stores

/-! ### Reading the files directly -/

/-- `find_value_in_ssts`, but with every page read from its file. -/
def findValueInFiles (xxh64 : XXH64) (disk : Disk) (key : Uint32) : List String → Outcome Uint32
  | [] => .ok Utils.invalidValue
  | sst :: ssts => do
    let file ← disk.read sst
    let (value, _) ← search (fileSource file) xxh64 key file.numPages ()
    if value = Utils.tombStone then .ok Utils.invalidValue
    else if value ≠ Utils.invalidValue then .ok value
    else findValueInFiles xxh64 disk key ssts

/-- `scan_ssts`, but with every page read from its file. -/
def scanFiles (disk : Disk) (startKey endKey : Uint32) :
    List String → List Entry → Outcome (List Entry)
  | [], result => .ok result
  | sst :: ssts, result => do
    let file ← disk.read sst
    let (found, _) ← scanFrom (fileSource file) startKey endKey file.numPages ()
    scanFiles disk startKey endKey ssts (result ++ found)

namespace Stores

variable {xxh64 : XXH64} {dbPath : String} {cs : List (ℕ × Sst)} {disk : Disk}
  {pool pool' : BufferPool PageData} {log : List Event}

theorem search_file (h : Stores xxh64 dbPath cs disk pool log) {path : String} {file : File}
    (hf : disk.find path = some file) (key : Uint32) :
    search (fileSource file) xxh64 key file.numPages () = .ok (lookupValue xxh64 file key, ()) := by
  obtain ⟨leaves, hl⟩ := h.layout hf
  obtain ⟨_, hs, -⟩ := hl.search_serves (s := ()) (fileSource_serves file) trivial key
  exact hs

theorem scan_file (h : Stores xxh64 dbPath cs disk pool log) {path : String} {file : File}
    (hf : disk.find path = some file) (startKey endKey : Uint32) :
    scanFrom (fileSource file) startKey endKey file.numPages () =
      .ok (scanValue file startKey endKey, ()) := by
  obtain ⟨leaves, hl⟩ := h.layout hf
  obtain ⟨_, hs, -⟩ := hl.scanFrom_serves (s := ()) (fileSource_serves file) trivial startKey endKey
  exact hs

/-- A lookup through the pool returns what the files say. -/
theorem findValueInSsts {key value : Uint32} : ∀ {ssts : List String}
    {pool : BufferPool PageData}, Stores xxh64 dbPath cs disk pool log →
    World.findValueInSsts (BTreeNode.searchValueByKey xxh64 key) disk ssts pool =
      .ok (value, pool') →
    findValueInFiles xxh64 disk key ssts = .ok value ∧ Stores xxh64 dbPath cs disk pool' log
  | [], pool, h, hr => by
    cases hr
    exact ⟨rfl, h⟩
  | sst :: ssts, pool, h, hr => by
    obtain ⟨file, hf, hr⟩ := bind_eq_ok.mp hr
    obtain ⟨⟨v, pool₁⟩, hs, hr⟩ := bind_eq_ok.mp hr
    obtain ⟨rfl, h₁⟩ := h.searchValueByKey (Disk.read_eq_ok.mp hf) hs
    simp only [findValueInFiles, hf, ok_bind, h.search_file (Disk.read_eq_ok.mp hf)]
    simp only at hr
    split_ifs at hr ⊢ with h1 h2
    · cases hr; exact ⟨rfl, h₁⟩
    · cases hr; exact ⟨rfl, h₁⟩
    · exact findValueInSsts h₁ hr

theorem scanSsts {startKey endKey : Uint32} {found : List Entry} : ∀ {ssts : List String}
    {result : List Entry} {pool : BufferPool PageData}, Stores xxh64 dbPath cs disk pool log →
    World.scanSsts (BTreeNode.scan xxh64 startKey endKey) disk ssts result pool =
      .ok (found, pool') →
    scanFiles disk startKey endKey ssts result = .ok found ∧ Stores xxh64 dbPath cs disk pool' log
  | [], result, pool, h, hr => by
    cases hr
    exact ⟨rfl, h⟩
  | sst :: ssts, result, pool, h, hr => by
    obtain ⟨file, hf, hr⟩ := bind_eq_ok.mp hr
    obtain ⟨⟨es, pool₁⟩, hs, hr⟩ := bind_eq_ok.mp hr
    obtain ⟨rfl, h₁⟩ := h.scan (Disk.read_eq_ok.mp hf) hs
    simp only [scanFiles, hf, ok_bind, h.scan_file (Disk.read_eq_ok.mp hf)]
    exact scanSsts h₁ hr

end Stores

end MiniKvs
