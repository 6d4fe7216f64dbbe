import MiniKvs.Store.Agreement
import MiniKvs.Store.Bounded

/-! What compactions cost. There are fewer of them than flushes, and over a whole run they
write every memtable again once for each level that it has reached. -/

namespace MiniKvs

open Lib Level

/-! ### Counting over the log -/

/-- The number of compactions. -/
def compactions (log : List Event) : ℕ :=
  log.countP fun e => match e with
    | .flush _ _ => false
    | .compact _ _ _ _ => true

/-- The number of flushes whose entries a call merges, after some history. -/
def batches (history : ℕ × (String → List ℕ)) : Event → ℕ
  | .flush _ _ => 0
  | .compact levels currentLevel _ _ =>
    ((levels.getD currentLevel ⟨[]⟩).sstList.flatMap history.2).length

/-- How many times compactions have written a memtable again, over all memtables. -/
def rewritten (log : List Event) : ℕ :=
  (log.foldl (fun x e => (x.1 + batches x.2 e, record x.2 e)) (0, 0, fun _ => [])).1

theorem rewritten_concat (log : List Event) (e : Event) :
    rewritten (log ++ [e]) = rewritten log + batches (history log) e := by
  have hfold : ∀ log : List Event, (log.foldl (fun x e => (x.1 + batches x.2 e, record x.2 e))
      ((0, 0, fun _ => []) : ℕ × ℕ × (String → List ℕ))).2 = history log := by
    intro log
    induction log using List.reverseRecOn with
    | nil => rfl
    | append_singleton log e ih => rw [List.foldl_append, history_concat, ← ih]; rfl
  rw [rewritten, List.foldl_append, List.foldl_cons, List.foldl_nil, hfold]
  rfl

theorem compactions_append (log log' : List Event) :
    compactions (log ++ log') = compactions log + compactions log' := List.countP_append

variable {xxh64 : XXH64} {sort : StdSort} {dbPath : String} {log : List Event} {c : ℕ}
  {bits : List Bool} {w : World}

/-- From level `c` on, the SST of level `i` was made from `2 ^ i` flushes. -/
def Filled (dbPath : String) (log : List Event) : ℕ → List Bool → Prop
  | _, [] => True
  | c, b :: bits => (b = true → (origin log (sstPath dbPath (2 * c))).length = 2 ^ c) ∧
      Filled dbPath log (c + 1) bits

/-- SSTs that are not written to keep their origin. -/
theorem Filled.congr {log' : List Event} (h : Filled dbPath log c bits)
    (ho : ∀ i, c ≤ i → origin log' (sstPath dbPath (2 * i)) = origin log (sstPath dbPath (2 * i))) :
    Filled dbPath log' c bits := by
  induction bits generalizing c with
  | nil => trivial
  | cons b bits ih =>
    exact ⟨fun hb => by rw [ho c le_rfl, h.1 hb], ih h.2 fun i hi => ho i (by omega)⟩

/-- The number that an SST arrives at is that of no SST of the level or of deeper ones. -/
theorem Filled.arrive {log' : List Event} (h : Filled dbPath log c bits)
    (ho : ∀ n, n ≠ 2 * c + (bits.headD false).toNat →
      origin log' (sstPath dbPath n) = origin log (sstPath dbPath n)) :
    Filled dbPath log' c bits := by
  cases bits with
  | nil => trivial
  | cons b bits =>
    rw [List.headD_cons] at ho
    have hb := b.toNat_le
    refine ⟨fun hb => ?_, h.2.congr fun i hi => ho (2 * i) (by omega)⟩
    subst hb
    rw [ho (2 * c) (by rw [Bool.toNat_true]; omega), h.1 rfl]

theorem origin_compactEvent (log : List Event) (c : ℕ) (bits : List Bool) (n : ℕ) :
    origin (log ++ [compactEvent dbPath c bits]) (sstPath dbPath n) =
      if n = 2 * (c + 1) + (bits.headD false).toNat then
        origin log (sstPath dbPath (2 * c)) ++ origin log (sstPath dbPath (2 * c + 1))
      else origin log (sstPath dbPath n) := by
  rw [compactEvent, origin_compact (getD_compacting c bits), compactPath]
  simp only [sstPath_inj]

theorem batches_compactEvent (log : List Event) (c : ℕ) (bits : List Bool) :
    batches (history log) (compactEvent dbPath c bits) =
      (origin log (sstPath dbPath (2 * c))).length +
        (origin log (sstPath dbPath (2 * c + 1))).length := by
  rw [compactEvent, batches, getD_compacting]
  simp only [List.flatMap_cons, List.flatMap_nil, List.append_nil, List.length_append]
  rfl

/-- The compactions that an arrival at level `c` sets off: each carries twice as much. -/
theorem Filled.compact (h : Filled dbPath log c bits)
    (ha : (origin log (sstPath dbPath (2 * c + (bits.headD false).toNat))).length = 2 ^ c) :
    Filled dbPath (log ++ compactEvents dbPath c bits) c (inc bits) ∧
      rewritten (log ++ compactEvents dbPath c bits) =
        rewritten log + carried (fun i => 2 ^ (i + 1)) c bits ∧
      compactions (compactEvents dbPath c bits) = carried (fun _ => 1) c bits := by
  induction bits generalizing c log with
  | nil =>
    rw [compactEvents, List.append_nil]
    · exact ⟨⟨fun _ => ha, trivial⟩, rfl, rfl⟩
    · exact fun _ h => by cases h
  | cons b bits ih =>
    cases b with
    | false =>
      rw [compactEvents, List.append_nil]
      · exact ⟨⟨fun _ => ha, h.2⟩, rfl, rfl⟩
      · exact fun _ h => by cases h
    | true =>
      have hold := h.1 rfl
      have hnew : (origin log (sstPath dbPath (2 * c + 1))).length = 2 ^ c := ha
      have hfilled : Filled dbPath (log ++ [compactEvent dbPath c bits]) (c + 1) bits :=
        h.2.arrive fun n hn => by rw [origin_compactEvent, if_neg hn]
      have harrived : (origin (log ++ [compactEvent dbPath c bits])
          (sstPath dbPath (2 * (c + 1) + (bits.headD false).toNat))).length = 2 ^ (c + 1) := by
        rw [origin_compactEvent, if_pos rfl, List.length_append, hold, hnew]
        ring
      obtain ⟨hf, hr, hc⟩ := ih hfilled harrived
      rw [compactEvents, List.append_cons]
      refine ⟨⟨fun h => (by cases h), hf⟩, ?_, ?_⟩
      · rw [hr, rewritten_concat, batches_compactEvent, hold, hnew, carried]
        ring
      · rw [carried, ← hc, compactions, compactions, List.countP_cons, Nat.add_comm]
        rfl

/-- The log of `k` flushes. -/
theorem filled_logOf (dbPath : String) (k : ℕ) : Filled dbPath (logOf dbPath k) 0 k.bits ∧
    rewritten (logOf dbPath k) = total (fun i => i * 2 ^ i) 0 k.bits ∧
    compactions (logOf dbPath k) + k.bits.count true = k := by
  induction k with
  | zero => exact ⟨trivial, rfl, rfl⟩
  | succ k ih =>
    obtain ⟨hf, hr, hc⟩ := ih
    set flush : Event := .flush (levelsOf dbPath 0 k.bits)
      (sstPath dbPath (k.bits.headD false).toNat) with hflush
    have hlog : logOf dbPath (k + 1) =
        logOf dbPath k ++ [flush] ++ compactEvents dbPath 0 k.bits := by
      rw [logOf, List.range_succ, List.flatMap_append, List.flatMap_singleton, flushEvents,
        List.append_cons]
      rfl
    have harrived : (origin (logOf dbPath k ++ [flush])
        (sstPath dbPath (2 * 0 + (k.bits.headD false).toNat))).length = 2 ^ 0 := by
      rw [origin_flush, Nat.mul_zero, Nat.zero_add, if_pos rfl]
      rfl
    have hfilled : Filled dbPath (logOf dbPath k ++ [flush]) 0 k.bits := hf.arrive fun n hn => by
      rw [Nat.mul_zero, Nat.zero_add] at hn
      rw [origin_flush, if_neg (mt sstPath_inj.mp hn)]
    obtain ⟨hf', hr', hc'⟩ := hfilled.compact harrived
    rw [hlog, ← inc_bits]
    refine ⟨hf', ?_, ?_⟩
    · have hpotential := total_inc (f := fun i => i * 2 ^ i) (g := fun i => 2 ^ (i + 1))
        (s := fun _ => 0) (fun i => by ring) 0 k.bits
      have hbatches : batches (history (logOf dbPath k)) flush = 0 := rfl
      rw [carried_zero] at hpotential
      rw [hr', rewritten_concat, hr, hbatches]
      omega
    · have hpotential := total_inc (f := fun _ => 1) (g := fun _ => 0) (s := fun _ => 1)
        (fun _ => rfl) 0 k.bits
      have hone : compactions [flush] = 0 := rfl
      rw [carried_zero, total_one, total_one] at hpotential
      rw [compactions_append, compactions_append, hc', hone]
      omega

/-! ### Runs -/

/-- The cost of the compactions after `flushes w.log` flushes. -/
structure WriteCost (w : World) : Prop where
  compactions : compactions w.log + (flushes w.log).bits.count true = flushes w.log
  rewritten : rewritten w.log = ∑ i ∈ Finset.range (flushes w.log).size,
    if (flushes w.log).testBit i then i * 2 ^ i else 0
  rewritten_le : MiniKvs.rewritten w.log ≤ flushes w.log * Nat.log 2 (flushes w.log)

theorem AtRest.writeCost {slots : List (Option Sst)} (h : AtRest xxh64 dbPath slots w) :
    WriteCost w := by
  obtain ⟨-, hr, hc⟩ := filled_logOf dbPath (flushes w.log)
  rw [← h.log] at hr hc
  exact ⟨hc, by rw [hr, total_bits], hr ▸ total_mul_two_pow_le _⟩

def Op.puts : Op → ℕ
  | .put _ _ => 1
  | _ => 0

/-- Puts fill one memtable after the other, as long as the store is not closed. -/
structure Fills (size n : ℕ) (w : World) : Prop where
  isTree : w.IsTree size
  entries : w.store.currentMemtableEntries < size
  flushes : flushes w.log * size + w.store.currentMemtableEntries = n

namespace Fills

variable {slots : List (Option Sst)} {size n : ℕ} {w' : World}

/-- The memtable that is full with a put is flushed, and an empty one follows. -/
theorem put (h : Fills size n w) (hrest : AtRest xxh64 dbPath slots w) {key value : Uint32}
    (hw : w.put xxh64 key value = .ok w') : Fills size (n + 1) w' := by
  obtain ⟨memtable, hm, hnew⟩ := h.isTree.put key value
  obtain ⟨htree, hkeys⟩ := hnew (w.store.currentMemtableEntries + 1)
  have hn := h.flushes
  rw [World.put_eq, hm, ok_bind, h.isTree.size] at hw
  split_ifs at hw with hfull
  · have hne : AVLTree.entries (w.withMemtable memtable
        (w.store.currentMemtableEntries + 1)).store.memtable ≠ [] := by
      intro hnil
      rw [World.memtableKeys, hnil] at hkeys
      exact Finset.insert_ne_empty _ _ hkeys.symm
    obtain ⟨slots', tree, -, rfl, -, hflushes, -⟩ := (hrest.with_memtable memtable _).write hne hw
    have hsize : w.store.currentMemtableEntries + 1 = size := le_antisymm h.entries hfull
    refine ⟨(htree.flush hw).1, ?_, ?_⟩
    · exact (Nat.zero_lt_succ _).trans_eq hsize
    · rw [hflushes]
      show (MiniKvs.flushes w.log + 1) * size + 0 = n + 1
      rw [Nat.add_mul, Nat.one_mul]
      omega
  · cases hw
    exact ⟨htree, not_le.mp hfull, by rw [← hn]; rfl⟩

theorem deleteKey (h : Fills size n w) {key : Uint32} (hw : w.deleteKey key = .ok w') :
    Fills size n w' := by
  obtain ⟨memtable, hm, hnew⟩ := h.isTree.put key Utils.tombStone
  rw [World.deleteKey_eq, hm, ok_bind] at hw
  cases hw
  exact ⟨(hnew _).1, h.entries, h.flushes⟩

/-- Reads change the pool alone. -/
theorem read (h : Fills size n w) (hread : w.store.Alike w'.store ∧ w'.log = w.log) :
    Fills size n w' := by
  obtain ⟨hstore, hlog⟩ := hread
  have hm : w'.store.memtable = w.store.memtable := by rw [hstore]
  have hs : w'.store.memtableSize = w.store.memtableSize := by rw [hstore]
  have he : w'.store.currentMemtableEntries = w.store.currentMemtableEntries := by rw [hstore]
  exact ⟨(h.isTree.of_same ⟨hm, hs⟩).1, he ▸ h.entries, by rw [hlog, he, h.flushes]⟩

theorem step (h : Fills size n w) (hrest : AtRest xxh64 dbPath slots w) {op : Op} {r : Reply}
    (hop : op ≠ .close) (hw : World.step xxh64 sort op w = .ok (r, w')) :
    Fills size (n + op.puts) w' := by
  cases op with
  | put key value =>
    obtain ⟨w₁, hput, he⟩ := map_eq_ok.mp hw
    cases he
    exact h.put hrest hput
  | deleteKey key =>
    obtain ⟨w₁, hdelete, he⟩ := map_eq_ok.mp hw
    cases he
    exact h.deleteKey hdelete
  | get key =>
    obtain ⟨x, hget, he⟩ := map_eq_ok.mp hw
    cases he
    exact h.read (World.get_alike hget)
  | scan startKey endKey =>
    obtain ⟨x, hscan, he⟩ := map_eq_ok.mp hw
    cases he
    exact h.read (World.scan_alike hscan)
  | close => exact absurd rfl hop

end Fills

/-- After any run compactions have cost what the number of flushes says, which is the number
of puts over `memtable_size` if the store was not closed on the way. -/
theorem runStore_writeCost (xxh64 : XXH64) (sort : StdSort) (config : Config) (dbPath : String)
    (ops : List Op)
    (rs : List Reply) (w : World) (h : runStore xxh64 sort config dbPath ops = .ok (rs, w)) :
    WriteCost w ∧ (.close ∉ ops →
      flushes w.log = (ops.map Op.puts).sum / config.memtableSize) := by
  obtain ⟨slots, hrest⟩ := runStore_atRest h
  refine ⟨hrest.writeCost, fun hclose => ?_⟩
  have hstart : Fills config.memtableSize 0
      ⟨{ KVStore.new config with dbPath := dbPath }, .empty, []⟩ :=
    ⟨.empty rfl rfl, config.memtableSize_pos, Nat.zero_mul _⟩
  obtain ⟨-, hfills⟩ := run_tracks (World.step xxh64 sort) (fun op n => n + op.puts)
    (R := fun w n => (∃ slots, AtRest xxh64 dbPath slots w) ∧ Fills config.memtableSize n w)
    (p := fun op => op ≠ .close)
    (fun _ _ _ _ _ ⟨⟨_, hs⟩, hf⟩ hop hw => ⟨hs.step hw, hf.step hs hop hw⟩)
    ⟨⟨[], .start config dbPath⟩, hstart⟩ (fun op hop he => hclose (he ▸ hop)) h
  have hsum : finalState (fun (op : Op) n => n + op.puts) 0 ops = (ops.map Op.puts).sum := by
    rw [finalState, List.sum_eq_foldl, List.foldl_map]
  rw [← hsum, ← hfills.flushes, Nat.add_comm, Nat.mul_comm,
    Nat.add_mul_div_left _ _ config.memtableSize_pos, Nat.div_eq_of_lt hfills.entries,
    Nat.zero_add]

/-- The third of these puts does not compact, as the second one has. -/
theorem runStore_writeCost_three : ∃ w, WriteCost w ∧ flushes w.log = 3 := by
  have hrun := eq_ok_okOr ([], ⟨.new smallConfig, .empty, []⟩)
    (x := runStore constHash .insertion smallConfig "/a" [.put 5 7, .put 6 8, .get 5, .put 5 9])
    (by decide +kernel)
  obtain ⟨hcost, hflushes⟩ := runStore_writeCost constHash .insertion smallConfig "/a" _ _ _ hrun
  exact ⟨_, hcost, hflushes (by simp)⟩

end MiniKvs
