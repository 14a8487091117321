import Arags.Explore.AnchorStaleness
import Arags.Index.BufferTotals
import Arags.Memory.Passes
import Arags.Qa.Staleness

/-!
# Arags.Memory.Bookkeeping

What the maintenance leaves of everything that counts or refers to chunks: the totals of the
buffers, the links between versions, the answers, the maps and the vectors. None of the calls
writes any of these but the vectors.

* `BookkeepingTrue` — after a call.
* `CallSpares` — what a call must not take, told before it.
* `maintenance_bookkeeping` — one is the other.
-/

namespace Arags

open Sql

/-! ## The server -/

structure MemoryServer (ε : Type) where
  db : MaintenanceDb ε
  /-- The columns `total_chunks` and `total_files` of `buffers`. -/
  totals : Int → Int × Int
  qa : Table QaCacheRow
  maps : ExplorationDb

section Statement

variable {ε : Type} (env : MaintenanceEnv)

def MemoryServer.chunks (s : MemoryServer ε) : SeqTable Chunk := s.db.memory.chunks

def MemoryServer.buffers (s : MemoryServer ε) : List Int := s.db.projects.rows.map Prod.fst

def MaintenanceCall.serve (call : MaintenanceCall) (s : MemoryServer ε) (project : String) :
    MemoryServer ε :=
  { s with db := call.run env s.db project }

/-! ## The property -/

/-- The active rows of a buffer, and their files. -/
def realTotals (chunks : SeqTable Chunk) (b : Int) : Int × Int :=
  ((activeIn chunks (· == b) : Int), ((pathsIn chunks b).length : Int))

def Removed (s s' : MemoryServer ε) (i : Int) : Prop :=
  (∃ r, (i, r) ∈ s.chunks.rows) ∧ ∀ r, (i, r) ∉ s'.chunks.rows

def QaCacheRow.fresh (row : QaCacheRow) : Bool := row.isActive && !row.stale

def freshMap (maps : ExplorationDb) (id : Int) : Bool :=
  (maps.explorations.get? id).any fun row => row.isActive && row.status == .fresh

/-- An anchor refers to the chunks of its file with its hash; it may lose some of these. -/
structure BookkeepingTrue (s s' : MemoryServer ε) : Prop where
  totals : ∀ b ∈ s'.buffers, s'.totals b = realTotals s'.chunks b
  superseded : ∀ x ∈ s'.chunks.rows, ∀ j, x.2.supersededBy = some j → ¬ Removed s s' j
  named : ∀ i, Named s'.db.memory i → ¬ Removed s s' i
  answers : ∀ x ∈ s'.qa.rows, x.2.fresh = true → ∀ id ∈ x.2.sourceChunkIds, ∀ i,
    Text.parseInt64 id = some i → ¬ Removed s s' i
  maps : ∀ f ∈ s'.maps.explorationFiles, freshMap s'.maps f.1 = true → ∀ x ∈ s.chunks.rows,
    Removed s s' x.1 → f.2.carriedBy x.2 = true → f.2.broken s'.chunks = false
  vectors : ∀ i, i ∈ s'.db.memory.vectors ↔ i ∈ s.db.memory.vectors ∧ ¬ Removed s s' i

/-- The active rows of a buffer that a call does not take. -/
def stayingRows (s : MemoryServer ε) (project : String) (call : MaintenanceCall) (b : Int) :
    List (Int × Chunk) :=
  s.chunks.select fun i r =>
    r.bufferId == b && r.isActive && !(taken env s.db project call).contains i

/-- The recorded totals are those of the rows that stay. -/
def TotalsSpared (s : MemoryServer ε) (project : String) (call : MaintenanceCall) : Prop :=
  ∀ b ∈ s.buffers, s.totals b = (((stayingRows env s project call b).length : Int),
    ((((stayingRows env s project call b).map fun x => x.2.filePath).dedup).length : Int))

structure CallSpares (s : MemoryServer ε) (project : String) (call : MaintenanceCall) :
    Prop where
  totals : TotalsSpared env s project call
  superseded : ∀ x ∈ s.chunks.rows, x.1 ∉ taken env s.db project call → ∀ j,
    x.2.supersededBy = some j → j ∉ taken env s.db project call
  answers : ∀ x ∈ s.qa.rows, x.2.fresh = true → ∀ id ∈ x.2.sourceChunkIds, ∀ i,
    Text.parseInt64 id = some i → i ∉ taken env s.db project call
  maps : ∀ f ∈ s.maps.explorationFiles, freshMap s.maps f.1 = true → f.2.role = .cited →
    ∀ x ∈ s.chunks.rows, x.1 ∈ taken env s.db project call → f.2.carriedBy x.2 = true →
      ∃ y ∈ s.chunks.rows, y.1 ∉ taken env s.db project call ∧ f.2.carriedBy y.2 = true
  vectors : ∀ i ∈ stranded env s.db project call, i ∉ s.db.memory.vectors

end Statement

/-! ## Field by field -/

section Fields

variable {ε : Type} {env : MaintenanceEnv} {s s' : MemoryServer ε} {T : List Int}

/-- What is removed are the rows of the sweep. -/
theorem removed_iff (h : Swept s.db.memory s'.db.memory T)
    (hpresent : ∀ i ∈ T, ∃ r, (i, r) ∈ s.chunks.rows) {i : Int} :
    Removed s s' i ↔ i ∈ T := by
  constructor
  · rintro ⟨⟨r, hr⟩, hgone⟩
    by_contra hi
    exact hgone r (h.mem.mpr ⟨hr, hi⟩)
  · intro hi
    exact ⟨hpresent i hi, fun r hr => (h.mem.mp hr).2 hi⟩

theorem realTotals_swept (h : Swept s.db.memory s'.db.memory T) (b : Int) :
    let rows := s.chunks.select fun i r => r.bufferId == b && r.isActive && !T.contains i
    realTotals s'.chunks b =
      ((rows.length : Int), (((rows.map fun x => x.2.filePath).dedup).length : Int)) := by
  have hrows : (s'.chunks.select fun _ r => r.bufferId == b && r.isActive) =
      s.chunks.select fun i r => r.bufferId == b && r.isActive && !T.contains i := by
    unfold Table.select MemoryServer.chunks
    rw [h.rows, List.filter_filter]
  unfold realTotals activeIn Table.count pathsIn
  rw [hrows]

theorem broken_swept (h : Swept s.db.memory s'.db.memory T) (a : ExplorationAnchor) :
    a.broken s'.chunks = false ↔
      (a.role = .cited → ∃ y ∈ s.chunks.rows, y.1 ∉ T ∧ a.carriedBy y.2 = true) := by
  have hany : (∃ y ∈ s.chunks.rows, y.1 ∉ T ∧ a.carriedBy y.2 = true) ↔
      (s'.chunks.rows.any fun x => a.carriedBy x.2) = true := by
    rw [List.any_eq_true]
    refine exists_congr fun y => ?_
    rw [← and_assoc]
    exact and_congr_left fun _ => h.mem.symm
  rw [hany]
  change (a.role == .cited && !s'.chunks.rows.any fun x => a.carriedBy x.2) = false ↔ _
  rw [Bool.and_eq_false_iff, Bool.not_eq_false', beq_eq_false_iff_ne]
  tauto

end Fields

/-- Totals that are right stay right when no active row of a buffer is taken, and only then. -/
theorem totalsSpared_iff {ε : Type} {env : MaintenanceEnv} {s : MemoryServer ε}
    {project : String} {call : MaintenanceCall}
    (hright : ∀ b ∈ s.buffers, s.totals b = realTotals s.chunks b) :
    TotalsSpared env s project call ↔ ∀ x ∈ s.chunks.rows, x.2.bufferId ∈ s.buffers →
      x.2.isActive = true → x.1 ∉ taken env s.db project call := by
  have hrows : ∀ b, stayingRows env s project call b =
      (s.chunks.select fun _ r => r.bufferId == b && r.isActive).filter fun x =>
        !(taken env s.db project call).contains x.1 := by
    intro b
    unfold stayingRows Table.select
    rw [List.filter_filter]
    exact List.filter_congr fun x _ => Bool.and_comm _ _
  have hall : ∀ b, (stayingRows env s project call b =
        s.chunks.select fun _ r => r.bufferId == b && r.isActive) ↔
      ∀ x ∈ s.chunks.rows, x.2.bufferId = b → x.2.isActive = true →
        x.1 ∉ taken env s.db project call := by
    intro b
    rw [hrows, List.filter_eq_self]
    simp only [Table.select, List.mem_filter, Bool.and_eq_true, beq_iff_eq, Bool.not_eq_true',
      ← Bool.not_eq_true, List.contains_iff_mem, and_imp]
  constructor
  · intro h x hx hb hactive
    have hcounts := (h _ hb).symm.trans (hright _ hb)
    have hlength : (stayingRows env s project call x.2.bufferId).length =
        activeIn s.chunks (· == x.2.bufferId) := Int.ofNat.inj (congrArg Prod.fst hcounts)
    rw [hrows, activeIn, Table.count, List.length_filter_eq_length_iff] at hlength
    have hsame := List.filter_eq_self.mpr hlength
    exact (hall _).mp ((hrows _).trans hsame) x hx rfl hactive
  · intro h b hb
    have hsame := (hall b).mpr fun x hx hxb hactive => h x hx (hxb ▸ hb) hactive
    rw [hright b hb, hsame]
    rfl

/-- After a call the books are true exactly when it takes no chunk that they count on. -/
theorem maintenance_bookkeeping {ε : Type} (env : MaintenanceEnv)
    (hcopies : ∀ b, env.purgesCopies b = true) (hdecayed : ∀ b, env.purgesDecayed b = true)
    (s : MemoryServer ε) (project : String) (call : MaintenanceCall) :
    (BookkeepingTrue s (call.serve env s project) ↔ CallSpares env s project call) ∧
    ((∀ b ∈ s.buffers, s.totals b = realTotals s.chunks b) →
      (TotalsSpared env s project call ↔ ∀ x ∈ s.chunks.rows, x.2.bufferId ∈ s.buffers →
        x.2.isActive = true → x.1 ∉ taken env s.db project call)) := by
  refine ⟨?_, totalsSpared_iff⟩
  obtain ⟨hswept, hvectors⟩ := call_sweep hcopies hdecayed s.db project call
  have hremoved : ∀ i, Removed s (call.serve env s project) i ↔ i ∈ taken env s.db project call :=
    fun i => removed_iff hswept fun i hi => taken_present hi
  have hbuffers : (call.serve env s project).buffers = s.buffers :=
    congrArg (fun t : SeqTable ProjectIdent => t.rows.map Prod.fst) (run_projects s.db project call)
  have htotals : (∀ b ∈ (call.serve env s project).buffers, (call.serve env s project).totals b =
      realTotals (call.serve env s project).chunks b) ↔ TotalsSpared env s project call := by
    rw [hbuffers]
    refine forall_congr' fun b => forall_congr' fun _ => ?_
    rw [realTotals_swept hswept b]
    rfl
  have hrow : ∀ x, x ∈ (call.serve env s project).chunks.rows ↔
      x ∈ s.chunks.rows ∧ x.1 ∉ taken env s.db project call := fun x => hswept.mem
  constructor
  · intro h
    refine ⟨htotals.mp h.totals, ?_, ?_, ?_, ?_⟩
    · intro x hx hout j hj hgone
      exact h.superseded x ((hrow x).mpr ⟨hx, hout⟩) j hj ((hremoved j).mpr hgone)
    · intro x hx hfresh id hid i hi hgone
      exact h.answers x hx hfresh id hid i hi ((hremoved i).mpr hgone)
    · intro f hf hfresh hcited x hx hgone hcarried
      have hkept := h.maps f hf hfresh x hx ((hremoved x.1).mpr hgone) hcarried
      exact (broken_swept hswept f.2).mp hkept hcited
    · intro i hi hvector
      have hkept := (hvectors i).mpr ⟨hvector, .inr hi⟩
      exact ((h.vectors i).mp hkept).2 ((hremoved i).mpr (mem_stranded hi))
  · intro h
    refine ⟨htotals.mpr h.totals, ?_, ?_, ?_, ?_, ?_⟩
    · intro x hx j hj hgone
      obtain ⟨hx, hout⟩ := (hrow x).mp hx
      exact h.superseded x hx hout j hj ((hremoved j).mp hgone)
    · intro i hi hgone
      exact (hswept.named i hi).2 ((hremoved i).mp hgone)
    · intro x hx hfresh id hid i hi hgone
      exact h.answers x hx hfresh id hid i hi ((hremoved i).mp hgone)
    · intro f hf hfresh x hx hgone hcarried
      rw [broken_swept hswept f.2]
      intro hcited
      exact h.maps f hf hfresh hcited x hx ((hremoved x.1).mp hgone) hcarried
    · intro i
      rw [hremoved]
      refine (hvectors i).trans (and_congr_right fun hvector => ?_)
      exact or_iff_left fun hi => h.vectors i hi hvector

/-! ## The same text in two files -/

/-- A stream of two files with one text. -/
def copiedIndex : IndexDb :=
  indexHistory digestIndexer [[.init "p" "/p", .file "a.txt" (some "a"), .file "b.txt" (some "a")]]

def copiedServer : MemoryServer Unit where
  db :=
    { projects := SeqTable.empty.insert ⟨"p", none⟩
      memory := { copiedFiles with
        chunks := copiedIndex.chunks
        vectors := insertVectors ∅ [⟨1, 1, ()⟩, ⟨2, 1, ()⟩] }
      lastAccessed := fun _ => some 1000 }
  totals := countsOf copiedIndex.buffers
  qa := Table.empty
  maps := .empty

/-- Chunks that have been read lately stay. -/
theorem maintenance_bookkeeping_recent :
    taken sampleMaintenance copiedServer.db "p" .decay = [] ∧
      BookkeepingTrue copiedServer
        (MaintenanceCall.decay.serve sampleMaintenance copiedServer "p") := by
  have hnone : taken sampleMaintenance copiedServer.db "p" .decay = [] := by decide +kernel
  have hstranded : stranded sampleMaintenance copiedServer.db "p" .decay = [] := by decide +kernel
  refine ⟨hnone, (maintenance_bookkeeping sampleMaintenance (fun _ => rfl) (fun _ => rfl)
    copiedServer "p" .decay).1.mpr ⟨?_, ?_, ?_, ?_, ?_⟩⟩
  · intro b hb
    obtain rfl : b = 1 := by
      have hone : copiedServer.buffers = [1] := by decide
      exact List.mem_singleton.mp (hone ▸ hb)
    decide +kernel
  · intro x _ _ j _
    rw [hnone]
    exact List.not_mem_nil
  · exact fun x hx => absurd hx List.not_mem_nil
  · exact fun f hf => absurd hf List.not_mem_nil
  · intro i hi
    rw [hstranded] at hi
    cases hi

/-- Both totals are two before the call and after it, where one chunk is left. -/
theorem maintenance_bookkeeping_copies :
    (∀ b ∈ copiedServer.buffers, copiedServer.totals b = realTotals copiedServer.chunks b) ∧
      ¬ BookkeepingTrue copiedServer
        (MaintenanceCall.consolidate.serve sampleMaintenance copiedServer "p") := by
  refine ⟨by decide +kernel, fun h => ?_⟩
  have htotals := h.totals 1 (by decide +kernel)
  revert htotals
  decide +kernel

end Arags
