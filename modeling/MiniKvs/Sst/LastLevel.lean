import MiniKvs.Sst.Compaction

/-! Merges into the last level. A tombstone of the older file that meets a newer
entry of its key is dropped together with that entry and leaves a slot of zeros;
all other tombstones are kept. -/

namespace MiniKvs

open Lib

namespace BTreeNode

variable {xxh64 : XXH64} {oldSst newSst sst : File} {a b : List Entry} {fuel : ℕ}

/-- The merge writes leaves with these entries, first to the temporary file and then,
as far as the positions are in range, to the output. -/
structure LeavesWritten (xxh64 : XXH64) (isLastLevel : Bool) (oldSst newSst : File)
    (es : List Entry) : Prop where
  temp : ∃ leaves, mergedLeaves isLastLevel oldSst newSst = .ok leaves ∧
    (leaves.flatMap fun leaf => leaf.entries.take leaf.numKeys) = es
  output : ∀ sst, mergeSsts xxh64 oldSst newSst isLastLevel = .ok sst → leafEntries sst = es

theorem LeavesWritten.unique {isLastLevel : Bool} {es es' : List Entry}
    (h : LeavesWritten xxh64 isLastLevel oldSst newSst es)
    (h' : LeavesWritten xxh64 isLastLevel oldSst newSst es') : es = es' := by
  obtain ⟨leaves, hm, rfl⟩ := h.temp
  obtain ⟨leaves', hm', rfl⟩ := h'.temp
  rw [hm, Except.ok.injEq] at hm'
  rw [hm']

end BTreeNode

end MiniKvs
