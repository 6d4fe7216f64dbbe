import MiniKvs.Store.Refinement

/-! What is left of a store whose process ends without a close. The memtable is lost and
the SSTs are not, so the next store has the map as it was after the last flush. -/

namespace MiniKvs

open Lib Level

/-- A call, or the end of the process and a fresh store opened on the directory. -/
inductive Incident
  | call (c : Call)
  | lost (config : Config) (order : List String → List String)
      (perm : ∀ paths, (order paths).Perm paths)

/-- The values that may be put. -/
def Incident.ValueOk : Incident → Prop
  | .call c => c.ValueOk
  | .lost _ _ _ => True

instance : (incident : Incident) → Decidable incident.ValueOk
  | .call c => inferInstanceAs (Decidable c.ValueOk)
  | .lost _ _ _ => .isTrue trivial

section Incidents

variable (xxh64 : XXH64) (sort : StdSort)

def Incident.step : Incident → World → Outcome (Reply × World)
  | .call c, w => c.step xxh64 sort w
  | .lost config order _, w => do
    let w ← w.reopened config (order w.disk.keys)
    .ok (.done, w)

def runIncidents (config : Config) (dbPath : String) (incidents : List Incident) :
    Outcome (List Reply × World) := do
  let store ← (KVStore.new config).open dbPath none
  run (Incident.step xxh64 sort) incidents ⟨store, .empty, []⟩

end Incidents

/-! ### The ledger -/

/-- The map as the SSTs have it, and the writes that only the memtable has, the latest
last. A deleted key is written without a value. -/
structure Ledger where
  saved : KVMap
  unsaved : List (Uint32 × Option Uint32)
  memtableSize : ℕ

namespace Ledger

def new (config : Config) : Ledger := ⟨fun _ => none, [], config.memtableSize⟩

def current (l : Ledger) : KVMap :=
  l.unsaved.foldl (fun m write => Function.update m write.1 write.2) l.saved

/-- Only puts count towards a full memtable. -/
def puts (l : Ledger) : ℕ := l.unsaved.countP fun write => write.2.isSome

def write (key : Uint32) (value : Option Uint32) (l : Ledger) : Ledger :=
  { l with unsaved := l.unsaved ++ [(key, value)] }

def save (l : Ledger) : Ledger := { l with saved := l.current, unsaved := [] }

def next : Incident → Ledger → Ledger
  | .call (.op (.put key value)), l =>
    if (l.write key (some value)).puts ≥ l.memtableSize then (l.write key (some value)).save
    else l.write key (some value)
  | .call (.op (.deleteKey key)), l => l.write key none
  | .call (.op (.get _)), l => l
  | .call (.op (.scan _ _)), l => l
  | .call (.op .close), l => l.save
  | .call (.reopen config _ _), l => { l.save with memtableSize := config.memtableSize }
  | .lost config _ _, l => { l with unsaved := [], memtableSize := config.memtableSize }

def Replies (l : Ledger) : Incident → Reply → Prop
  | .call call, r => l.current.Replies call r
  | .lost _ _ _, _ => True

@[simp] theorem current_save (l : Ledger) : l.save.current = l.current := rfl

theorem current_write (key : Uint32) (value : Option Uint32) (l : Ledger) :
    (l.write key value).current = Function.update l.current key value := by
  rw [current, write, List.foldl_append]
  rfl

/-- A call changes the map of a ledger as it changes a map. -/
theorem current_next (call : Call) (l : Ledger) :
    (l.next (.call call)).current = l.current.next call := by
  cases call with
  | op call =>
    cases call with
    | put key value =>
      rw [next]
      split_ifs
      · exact current_write key (some value) l
      · exact current_write key (some value) l
    | deleteKey key => exact current_write key none l
    | get key => rfl
    | scan startKey endKey => rfl
    | close => rfl
  | reopen config order perm => rfl

/-- No full memtable is left unsaved. -/
theorem puts_next (incident : Incident) {l : Ledger} (h : l.puts ≤ l.memtableSize - 1) :
    (l.next incident).puts ≤ (l.next incident).memtableSize - 1 := by
  cases incident with
  | call call =>
    cases call with
    | op call =>
      cases call with
      | put key value =>
        rw [next]
        split_ifs with hfull
        · exact Nat.zero_le _
        · show (l.write key (some value)).puts ≤ l.memtableSize - 1
          omega
      | deleteKey key =>
        show List.countP _ (l.unsaved ++ [(key, none)]) ≤ _
        rw [List.countP_append]
        exact h
      | get key => exact h
      | scan startKey endKey => exact h
      | close => exact Nat.zero_le _
    | reopen config order perm => exact Nat.zero_le _
  | lost config order perm => exact Nat.zero_le _

end Ledger

/-! ### The snapshot and the ledger -/

namespace Snapshot

def nextIncident : Incident → Snapshot → Snapshot
  | .call call, t => t.next call
  | .lost config _ _, t => t.restarted config

/-- The directory can be listed after a loss. -/
def SafeIncident (dbPath : String) (t : Snapshot) : Incident → Prop
  | .call call => t.Safe dbPath call
  | .lost _ _ _ => searchName dbPath.toList = none ∧ t.slots.length ≤ 1073741824

instance (dbPath : String) (t : Snapshot) :
    (incident : Incident) → Decidable (t.SafeIncident dbPath incident)
  | .call call => inferInstanceAs (Decidable (t.Safe dbPath call))
  | .lost _ _ _ => inferInstanceAs (Decidable (_ = none ∧ _ ≤ _))

/-- Only the memtable and the SSTs count. -/
theorem Denotes.congr {t t' : Snapshot} {m : KVMap} (h : t.Denotes m)
    (hm : t'.memtable = t.memtable) (hs : t'.slots = t.slots) : t'.Denotes m := by
  have hfind : ∀ key, t'.find key = t.find key := fun key => by rw [find, find, hm, hs]
  exact ⟨hm ▸ h.memtable, hs ▸ h.slots, fun key => hfind key ▸ h.value key,
    fun key => (h.map key).trans (congrArg live (hfind key).symm)⟩

theorem flush_memtable (t : Snapshot) : t.flush.memtable = [] := by
  unfold flush
  split_ifs with hnil
  · exact hnil
  · rfl

end Snapshot

/-- The snapshot denotes the current map, and without its memtable the saved one. -/
structure Records (t : Snapshot) (l : Ledger) : Prop where
  current : t.Denotes l.current
  saved : Snapshot.Denotes { t with memtable := [] } l.saved
  entries : t.entries = l.puts
  memtableSize : t.memtableSize = l.memtableSize
  nil : t.memtable = [] → l.unsaved = []

namespace Records

variable {t : Snapshot} {l : Ledger}

theorem new (config : Config) : Records (.new config) (.new config) :=
  ⟨.new config, .new config, rfl, rfl, fun _ => rfl⟩

theorem flush (h : Records t l) : Records t.flush l.save := by
  have hd := h.current.flush
  refine ⟨hd, hd.congr t.flush_memtable.symm rfl, ?_, ?_, fun _ => rfl⟩
  · show _ = 0
    unfold Snapshot.flush
    split_ifs with hnil
    · rw [h.entries, Ledger.puts, h.nil hnil]
      rfl
    · rfl
  · unfold Snapshot.flush
    split_ifs
    · exact h.memtableSize
    · exact h.memtableSize

theorem insertKey_ne_nil (e : Entry) (es : List Entry) : insertKey Entry.key e es ≠ [] := by
  cases es with
  | nil => exact List.cons_ne_nil _ _
  | cons e' es =>
    rw [insertKey]
    split_ifs <;> exact List.cons_ne_nil _ _

theorem put (h : Records t l) {key value : Uint32} (hv : value < Utils.tombStone) :
    Records (t.put key value) (l.write key (some value)) := by
  have hd := h.current.insert (hv.trans (by decide)).ne (t.put key value) rfl rfl
  have hlive : Snapshot.live (some ⟨key, value⟩) = some value := if_neg hv.ne
  rw [hlive, ← Ledger.current_write] at hd
  refine ⟨hd, h.saved.congr rfl rfl, ?_, h.memtableSize,
    fun hnil => absurd hnil (insertKey_ne_nil _ _)⟩
  show t.entries + 1 = List.countP _ (l.unsaved ++ [(key, some value)])
  rw [List.countP_append, h.entries]
  rfl

theorem deleteKey (h : Records t l) (key : Uint32) :
    Records (t.deleteKey key) (l.write key none) := by
  have hd := h.current.insert (by decide) (t.deleteKey key) rfl rfl
  have hlive : Snapshot.live (some ⟨key, Utils.tombStone⟩) = none := by
    rw [Snapshot.live, Option.bind_some, if_pos rfl]
  rw [hlive, ← Ledger.current_write] at hd
  refine ⟨hd, h.saved.congr rfl rfl, ?_, h.memtableSize,
    fun hnil => absurd hnil (insertKey_ne_nil _ _)⟩
  show t.entries = List.countP _ (l.unsaved ++ [(key, none)])
  rw [List.countP_append, h.entries]
  rfl

theorem next (h : Records t l) {incident : Incident} (hv : incident.ValueOk) :
    Records (t.nextIncident incident) (l.next incident) := by
  cases incident with
  | call call =>
    cases call with
    | op call =>
      cases call with
      | put key value =>
        have hput : Records (t.put key value) _ := h.put hv
        rw [Snapshot.nextIncident, Snapshot.next, Ledger.next]
        have hfull : (t.put key value).entries ≥ t.memtableSize ↔
            (l.write key (some value)).puts ≥ l.memtableSize := by
          rw [hput.entries, h.memtableSize]
        split_ifs with h₁ h₂ h₂
        · exact hput.flush
        · exact absurd (hfull.mp h₁) h₂
        · exact absurd (hfull.mpr h₂) h₁
        · exact hput
      | deleteKey key => exact h.deleteKey key
      | get key => exact h
      | scan startKey endKey => exact h
      | close => exact h.flush
    | reopen config order perm =>
      have hf := h.flush
      exact ⟨hf.saved.congr rfl rfl, hf.saved.congr rfl rfl, rfl, rfl, fun _ => rfl⟩
  | lost config order perm =>
    exact ⟨h.saved.congr rfl rfl, h.saved.congr rfl rfl, rfl, rfl, fun _ => rfl⟩

end Records

/-! ### Runs -/

namespace Incident

variable {xxh64 : XXH64} {sort : StdSort} {dbPath : String} {w : World} {t : Snapshot} {l : Ledger}

/-- A flush of a call drops no page that a lookup has just moved to the front. -/
def KeepsFront (w : World) : Incident → Prop
  | .call c => c.KeepsFront w
  | .lost _ _ _ => True

instance (w : World) : (incident : Incident) → Decidable (incident.KeepsFront w)
  | .call c => inferInstanceAs (Decidable (c.KeepsFront w))
  | .lost _ _ _ => .isTrue trivial

theorem step_records (h : Models xxh64 dbPath w t) (hr : Records t l) {incident : Incident}
    (hv : incident.ValueOk) (hsafe : t.SafeIncident dbPath incident)
    (hfront : incident.KeepsFront w) :
    ∃ r w', incident.step xxh64 sort w = .ok (r, w') ∧
      Models xxh64 dbPath w' (t.nextIncident incident) ∧ l.Replies incident r := by
  cases incident with
  | call call => exact h.step hr.current hsafe hfront
  | lost config order perm =>
    obtain ⟨w', hw, h'⟩ := h.reopened config hsafe.1 hsafe.2 (perm w.disk.keys)
    exact ⟨.done, w', by rw [Incident.step, hw, ok_bind], h', trivial⟩

end Incident

/-- Snapshot and ledger side by side. -/
def nextRecords (incident : Incident) (x : Snapshot × Ledger) : Snapshot × Ledger :=
  (x.1.nextIncident incident, x.2.next incident)

/-- In a run of safe incidents that drops no stale front page, a loss takes back the writes
since the last flush and no others, fewer puts than fill a memtable; every lookup answers as
what is left of the map does. -/
theorem runIncidents_durable (xxh64 : XXH64) (sort : StdSort) (config : Config) (dbPath : String)
    (incidents : List Incident) (hvalues : ∀ incident ∈ incidents, incident.ValueOk)
    (hsafe : AlongTotal Snapshot.nextIncident (Snapshot.SafeIncident dbPath) (.new config)
      incidents)
    (hfront : Along (Incident.step xxh64 sort) (fun w incident => incident.KeepsFront w)
      (.start config dbPath) incidents) :
    ∃ rs w, runIncidents xxh64 sort config dbPath incidents = .ok (rs, w) ∧
      Answers Ledger.next Ledger.Replies (.new config) incidents rs ∧
      (finalState Ledger.next (.new config) incidents).puts ≤
        (finalState Ledger.next (.new config) incidents).memtableSize - 1 := by
  have hG : AlongTotal nextRecords (fun x incident => x.1.SafeIncident dbPath incident ∧
      incident.ValueOk) (.new config, .new config) incidents :=
    AlongTotal.of_map (f := Prod.fst)
      (G := fun t incident => Snapshot.SafeIncident dbPath t incident ∧ incident.ValueOk)
      (fun _ _ => rfl) (hsafe.and hvalues)
  obtain ⟨rs, w, hrun, ⟨-, -, hputs⟩, hanswers⟩ := run_simulates (Incident.step xxh64 sort)
    (R := fun w (x : Snapshot × Ledger) => Models xxh64 dbPath w x.1 ∧ Records x.1 x.2 ∧
      x.2.puts ≤ x.2.memtableSize - 1)
    (Q := fun x => x.2.Replies)
    (fun w x incident ⟨hm, hr, hle⟩ hg hp => by
      obtain ⟨r, w', hw, h', hreply⟩ := Incident.step_records hm hr hg.2 hg.1 hp
      exact ⟨r, w', hw, ⟨h', hr.next hg.2, Ledger.puts_next incident hle⟩, hreply⟩)
    ⟨Models.start config dbPath, Records.new config, Nat.zero_le _⟩ hG hfront
  have hsnd : (finalState nextRecords (.new config, .new config) incidents).2 =
      finalState Ledger.next (.new config) incidents :=
    finalState_map (f := Prod.snd) (fun _ _ => rfl) incidents _
  rw [hsnd] at hputs
  exact ⟨rs, w, hrun, Answers.map (f := Prod.snd) (fun _ _ => rfl) hanswers, hputs⟩


/-- Two puts fill the memtable. -/
def twoConfig : Config :=
  { smallConfig with memtableSize := 2, memtableSize_pos := smallConfig.initialSize_le }

def sampleIncidents : List Incident :=
  [.call (.op (.put 5 7)), .lost twoConfig List.reverse List.reverse_perm,
    .call (.op (.put 5 8)), .call (.op (.deleteKey 6)), .call (.op (.get 5)),
    .lost smallConfig id List.Perm.refl, .call (.op (.get 5))]

theorem runIncidents_durable_sample : ∃ rs w,
    runIncidents constHash .insertion smallConfig "/a" sampleIncidents = .ok (rs, w) ∧
      Answers Ledger.next Ledger.Replies (.new smallConfig) sampleIncidents rs ∧
      (finalState Ledger.next (.new smallConfig) sampleIncidents).puts ≤
        (finalState Ledger.next (.new smallConfig) sampleIncidents).memtableSize - 1 :=
  runIncidents_durable constHash .insertion smallConfig "/a" sampleIncidents (by decide)
    (by decide +kernel) (by decide +kernel)

end MiniKvs
