import Arags.Rlm.Progress

/-!
# Arags.Rlm.L1Refresh

What phase 5 of an index stream leaves in the queue for each file: `enqueue_rlm_l1_work` with the
files that the stream persisted.

* `enqueueRlmJob_single`       — the enqueue of one slot.
* `enqueueL1File_own`, `_other` — one file, seen from its own jobs and from those of the others.
* `enqueueRlmL1Work_fileJobs`  — the pass, seen from the jobs of one file.
* `RefreshesFile`, `RefreshHolds` — what a stream calls for, and when the pass does that;
  `l1_work_refreshes`.
-/

namespace Arags

open Sql

/-! ## The jobs of one file -/

def fileJobs (t : Table RlmJob) (project file : String) : List (Int × RlmJob) :=
  t.select fun _ r => r.isAbout project 1 file

/-- Another subject has a row under the job key of the file. -/
def KeyTaken (t : Table RlmJob) (project file : String) : Prop :=
  ∃ x ∈ t.rows, x.2.isAbout project 1 file = false ∧ x.2.jobKey = rlmJobKey project 1 file

instance (t : Table RlmJob) (project file : String) : Decidable (KeyTaken t project file) := by
  unfold KeyTaken
  exact inferInstance

theorem mem_fileJobs {t : Table RlmJob} {project file : String} {x : Int × RlmJob} :
    x ∈ fileJobs t project file ↔ x ∈ t.rows ∧ x.2.isAbout project 1 file = true := by
  unfold fileJobs
  rw [← Prod.mk.eta (p := x), Table.mem_select]

theorem liveSlots_file (t : Table RlmJob) (project file : String) :
    liveSlots t project (1, file) = (fileJobs t project file).filter fun x => x.2.live := by
  unfold liveSlots fileJobs Table.select
  rw [List.filter_filter]
  exact List.filter_congr fun x _ => Bool.and_comm ..

theorem fileJobs_otherRows (t : Table RlmJob) (job : NewRlmJob) (project file : String) :
    fileJobs (otherRows t job) project file =
      if job.project = project ∧ job.level = 1 ∧ job.subject = file then []
      else fileJobs t project file := by
  unfold fileJobs otherRows Table.select Table.delete
  rw [List.filter_filter]
  split
  · rename_i h
    obtain ⟨rfl, hlevel, rfl⟩ := h
    rw [hlevel]
    exact List.filter_eq_nil_iff.mpr fun x _ => by simp
  · rename_i h
    refine List.filter_congr fun x _ => ?_
    dsimp only
    cases hx : x.2.isAbout project 1 file with
    | false => rfl
    | true =>
      have hother : x.2.isAbout job.project job.level job.subject = false := by
        simp only [RlmJob.isAbout, Bool.and_eq_true, beq_iff_eq] at hx
        obtain ⟨⟨rfl, hl⟩, rfl⟩ := hx
        refine Bool.eq_false_iff.mpr fun ha => h ?_
        simp only [RlmJob.isAbout, Bool.and_eq_true, beq_iff_eq] at ha
        exact ⟨ha.1.1.symm, ha.1.2.symm.trans hl, ha.2.symm⟩
      rw [hother]
      rfl

/-! ## One file -/

theorem isAbout_other {r : RlmJob} {project file other : String} (hne : other ≠ file)
    (h : r.isAbout project 1 file = true) : r.isAbout project 1 other = false := by
  simp only [RlmJob.isAbout, Bool.and_eq_true, beq_iff_eq] at h
  simp [RlmJob.isAbout, h.2, hne.symm]

/-- The enqueue of a single slot for a file. -/
theorem enqueueRlmJob_single (scan : ScanOrder RlmJob) (db : RlmDb) {job : NewRlmJob}
    {project file : String} (now : Int) (hslots : job.quorumSlots = 1)
    (hp : job.project = project) (hl : job.level = 1) (hs : job.subject = file) :
    (liveSlots db.rlmJobs project (1, file) ≠ [] ∧
      (enqueueRlmJob scan db job [] now).1.rlmJobs = db.rlmJobs) ∨
    (liveSlots db.rlmJobs project (1, file) = [] ∧
      ∃ r : RlmJob, r.isAbout project 1 file = true ∧ r.status = .pending ∧
        r.payload = job.payload ∧ (enqueueRlmJob scan db job [] now).1.rlmJobs =
          if KeyTaken db.rlmJobs project file then otherRows db.rlmJobs job
          else (otherRows db.rlmJobs job).insert r) := by
  subst hp hs
  have hkey : rlmJobKey job.project job.level job.subject = rlmJobKey job.project 1 job.subject :=
    by rw [hl]
  have htaken : (otherRows db.rlmJobs job).rows.any
      (fun x => x.2.jobKey == rlmJobKey job.project 1 job.subject) = true ↔
        KeyTaken db.rlmJobs job.project job.subject := by
    rw [List.any_eq_true]
    refine exists_congr fun x => ?_
    rw [beq_iff_eq, ← and_assoc]
    refine and_congr_left fun _ => ?_
    rw [otherRows, ← Prod.mk.eta (p := x), Table.mem_delete, hl]
  have hlive : (existingSlots scan db.rlmJobs job).any (fun x => x.2.live) = true ↔
      liveSlots db.rlmJobs job.project (1, job.subject) ≠ [] := by
    rw [List.any_eq_true, Ne, List.eq_nil_iff_forall_not_mem, not_forall]
    refine exists_congr fun x => ?_
    rw [existingSlots_mem, not_not, mem_liveSlots, and_assoc, hl]
  rcases enqueueRlmJob_cases db scan job [] now with ⟨hany, hsame⟩ | ⟨hany, -⟩
  · exact .inl ⟨hlive.mp hany, by rw [hsame]⟩
  · refine .inr ⟨?_, ?_⟩
    · by_contra hne
      rw [hlive.mpr hne] at hany
      cases hany
    obtain ⟨group, generation, new, -, hcreate⟩ := enqueueRlmJob_creates [] now hany
    refine ⟨slotRow job 1 (rlmJobKey job.project 1 job.subject) group generation now 0, ?_, rfl,
      rfl, ?_⟩
    · simp [slotRow, RlmJob.isAbout, hl]
    · rw [hcreate]
      unfold createSlots
      rw [hslots, hkey]
      simp only [Nat.max_self, List.range_one, List.map_cons, List.map_nil, insertRlmSlots,
        ← htaken]
      have hslot : (slotRow job 1 (rlmJobKey job.project 1 job.subject) group generation now
          0).jobKey = rlmJobKey job.project 1 job.subject := rfl
      rw [hslot]
      split <;> rfl

section Pass

variable (codec : PayloadCodec) (scan : ScanOrder RlmNode) (jobScan : ScanOrder RlmJob)
variable (chunks : SeqTable Chunk) (bufferId : Int) (project : String) (now : Int)

/-- The file has work to enqueue, and no live job. -/
def OwesJob (db : RlmDb) (file : String) : Prop :=
  enqueuesFile scan chunks bufferId project db.rlmNodes file = true ∧
    liveSlots db.rlmJobs project (1, file) = []

instance (db : RlmDb) (file : String) :
    Decidable (OwesJob scan chunks bufferId project db file) := by
  unfold OwesJob
  exact inferInstance

/-- What one file does to the table of the jobs. -/
theorem enqueueL1File_cases (db : RlmDb) (file : String) :
    ∃ job : NewRlmJob, job.project = project ∧ job.level = 1 ∧ job.subject = file ∧
      job.payload = codec.encode (filePayload (rlmChunksSnapshot chunks bufferId file)) ∧
      let jobs := (enqueueL1File codec scan jobScan chunks bufferId project now db file).1.rlmJobs
      (¬ OwesJob scan chunks bufferId project db file ∧ jobs = db.rlmJobs) ∨
      (OwesJob scan chunks bufferId project db file ∧
        ∃ r : RlmJob, r.isAbout project 1 file = true ∧ r.status = .pending ∧
          r.payload = job.payload ∧ jobs =
            if KeyTaken db.rlmJobs project file then otherRows db.rlmJobs job
            else (otherRows db.rlmJobs job).insert r) := by
  refine ⟨fileL1Job codec bufferId project file (rlmChunksSnapshot chunks bufferId file), rfl, rfl,
    rfl, rfl, ?_⟩
  dsimp only
  rw [enqueueL1File_jobs]
  by_cases hd : enqueuesFile scan chunks bufferId project db.rlmNodes file = true
  · rw [if_pos hd]
    have hsingle := @enqueueRlmJob_single jobScan db (fileL1Job codec bufferId project file
      (rlmChunksSnapshot chunks bufferId file)) project file now rfl rfl rfl rfl
    rcases hsingle with ⟨hlive, hjobs⟩ | ⟨hidle, hjobs⟩
    · exact .inl ⟨fun h => hlive h.2, hjobs⟩
    · exact .inr ⟨⟨hd, hidle⟩, hjobs⟩
  · rw [if_neg hd]
    exact .inl ⟨fun h => hd h.1, rfl⟩

/-- A file that owes a job gets one, or loses what it has to a taken key. -/
theorem enqueueL1File_own (db : RlmDb) (file : String) :
    let after := fileJobs (enqueueL1File codec scan jobScan chunks bufferId project now db
      file).1.rlmJobs project file
    if OwesJob scan chunks bufferId project db file then
      if KeyTaken db.rlmJobs project file then after = []
      else ∃ id r, r.status = .pending ∧ r.payload = codec.encode (filePayload
        (rlmChunksSnapshot chunks bufferId file)) ∧ after = [(id, r)]
    else after = fileJobs db.rlmJobs project file := by
  dsimp only
  obtain ⟨job, hp, hl, hs, hpayload, ⟨hnot, hjobs⟩ | ⟨howes, r, habout, hstatus, hr, hjobs⟩⟩ :=
    enqueueL1File_cases codec scan jobScan chunks bufferId project now db file
  · rw [if_neg hnot, hjobs]
  · have hothers : fileJobs (otherRows db.rlmJobs job) project file = [] := by
      rw [fileJobs_otherRows, if_pos ⟨hp, hl, hs⟩]
    rw [if_pos howes, hjobs]
    split
    · exact hothers
    · refine ⟨(otherRows db.rlmJobs job).nextId, r, hstatus, hr.trans hpayload, ?_⟩
      unfold fileJobs at hothers ⊢
      rw [Table.select_insert, hothers, if_pos habout]
      rfl

/-- The jobs of the other files stay. -/
theorem enqueueL1File_other (db : RlmDb) {file other : String} (hne : other ≠ file) :
    fileJobs (enqueueL1File codec scan jobScan chunks bufferId project now db
      file).1.rlmJobs project other = fileJobs db.rlmJobs project other := by
  obtain ⟨job, -, -, hs, -, ⟨-, hjobs⟩ | ⟨-, r, habout, -, -, hjobs⟩⟩ :=
    enqueueL1File_cases codec scan jobScan chunks bufferId project now db file
  · rw [hjobs]
  · have hothers : fileJobs (otherRows db.rlmJobs job) project other =
        fileJobs db.rlmJobs project other := by
      rw [fileJobs_otherRows, if_neg fun h => hne (h.2.2.symm.trans hs)]
    rw [hjobs]
    split
    · exact hothers
    · refine Eq.trans ?_ hothers
      unfold fileJobs
      rw [Table.select_insert, isAbout_other hne habout]
      exact List.append_nil _

theorem enqueuesFile_later (db : RlmDb) {file other : String} (hne : other ≠ file) :
    enqueuesFile scan chunks bufferId project
        (enqueueL1File codec scan jobScan chunks bufferId project now db file).1.rlmNodes other =
      enqueuesFile scan chunks bufferId project db.rlmNodes other := by
  rw [enqueueL1File_nodes]
  split
  · unfold enqueuesFile
    rw [getRlmNodeBySubject_mark hne]
  · rfl

/-! ## The pass -/

theorem enqueueRlmL1Work_append (db : RlmDb) (done files : List String) :
    (enqueueRlmL1Work codec scan jobScan chunks bufferId project now db (done ++ files)).1 =
      let r := enqueueRlmL1Work codec scan jobScan chunks bufferId project now db done
      if r.2.isOk then (enqueueRlmL1Work codec scan jobScan chunks bufferId project now r.1
        files).1 else r.1 := by
  induction done generalizing db with
  | nil => rfl
  | cons file done ih =>
    rw [List.cons_append, enqueueRlmL1Work_cons]
    simp only [ih]
    rw [enqueueRlmL1Work]
    generalize enqueueL1File codec scan jobScan chunks bufferId project now db file = r
    obtain ⟨db', res⟩ := r
    cases res with
    | error e => rfl
    | ok c =>
      have hmap : ∀ res : Except String (Nat × Nat),
          (res.map fun r => (c.1 + r.1, c.2 + r.2)).isOk = res.isOk := fun res => by
        cases res <;> rfl
      simp only [hmap]
      rfl

/-- A pass over other files changes neither the jobs of the file nor whether it has work. -/
theorem enqueueRlmL1Work_others (db : RlmDb) {file : String} {files : List String}
    (h : file ∉ files) :
    let after := (enqueueRlmL1Work codec scan jobScan chunks bufferId project now db files).1
    fileJobs after.rlmJobs project file = fileJobs db.rlmJobs project file ∧
      (OwesJob scan chunks bufferId project after file ↔
        OwesJob scan chunks bufferId project db file) := by
  induction files generalizing db with
  | nil => exact ⟨rfl, .rfl⟩
  | cons other files ih =>
    obtain ⟨hne, hrest⟩ := not_or.mp (List.mem_cons.not.mp h)
    have hjobs := enqueueL1File_other codec scan jobScan chunks bufferId project now db hne
    have howes : OwesJob scan chunks bufferId project (enqueueL1File codec scan jobScan chunks
        bufferId project now db other).1 file ↔ OwesJob scan chunks bufferId project db file := by
      unfold OwesJob
      rw [enqueuesFile_later codec scan jobScan chunks bufferId project now db hne,
        liveSlots_file, liveSlots_file, hjobs]
    rw [enqueueRlmL1Work_cons]
    dsimp only
    split
    · obtain ⟨hj, ho⟩ := ih (enqueueL1File codec scan jobScan chunks bufferId project now db
        other).1 hrest
      exact ⟨hj.trans hjobs, ho.trans howes⟩
    · exact ⟨hjobs, howes⟩

/-- The database when the pass comes to the file. -/
def atTurn (db : RlmDb) (files : List String) (file : String) : RlmDb :=
  (enqueueRlmL1Work codec scan jobScan chunks bufferId project now db
    (files.takeWhile (· != file))).1

/-- After the pass the file has the jobs that its own turn left. -/
theorem enqueueRlmL1Work_fileJobs (db : RlmDb) {files : List String} (hnodup : files.Nodup)
    (file : String) :
    let after := fileJobs (enqueueRlmL1Work codec scan jobScan chunks bufferId project now db
      files).1.rlmJobs project file
    let turn := atTurn codec scan jobScan chunks bufferId project now db files file
    if Reached codec scan jobScan chunks bufferId project now db files file then
      after = fileJobs (enqueueL1File codec scan jobScan chunks bufferId project now turn
        file).1.rlmJobs project file
    else after = fileJobs db.rlmJobs project file := by
  dsimp only
  by_cases hmem : file ∈ files
  · obtain ⟨pre, post, rfl⟩ := List.append_of_mem hmem
    obtain ⟨-, hpost, hdisj⟩ := List.nodup_append.mp hnodup
    have hpre : file ∉ pre := fun h => hdisj file h file List.mem_cons_self rfl
    have hrest : file ∉ post := (List.nodup_cons.mp hpost).1
    have htake : (pre ++ file :: post).takeWhile (· != file) = pre := by
      rw [List.takeWhile_append_of_pos, List.takeWhile_cons_of_neg (by simp), List.append_nil]
      intro f hf
      simpa using fun he : f = file => hpre (he ▸ hf)
    have hreached : Reached codec scan jobScan chunks bufferId project now db
        (pre ++ file :: post) file ↔ (enqueueRlmL1Work codec scan jobScan chunks bufferId project
          now db pre).2.isOk = true := by
      unfold Reached
      rw [htake]
      exact and_iff_right hmem
    rw [enqueueRlmL1Work_append, atTurn, htake]
    dsimp only
    by_cases hok : (enqueueRlmL1Work codec scan jobScan chunks bufferId project now db
        pre).2.isOk = true
    · rw [if_pos (hreached.mpr hok), if_pos hok, enqueueRlmL1Work_cons]
      dsimp only
      split
      · exact (enqueueRlmL1Work_others codec scan jobScan chunks bufferId project now _ hrest).1
      · rfl
    · rw [if_neg fun h => hok (hreached.mp h), if_neg hok]
      exact (enqueueRlmL1Work_others codec scan jobScan chunks bufferId project now db hpre).1
  · have hnot : ¬ Reached codec scan jobScan chunks bufferId project now db files file :=
      fun h => hmem h.1
    rw [if_neg hnot]
    exact (enqueueRlmL1Work_others codec scan jobScan chunks bufferId project now db hmem).1

/-- At its turn the file has the jobs and the work that it had before the pass. -/
theorem atTurn_file (db : RlmDb) (files : List String) (file : String) :
    let turn := atTurn codec scan jobScan chunks bufferId project now db files file
    fileJobs turn.rlmJobs project file = fileJobs db.rlmJobs project file ∧
      (OwesJob scan chunks bufferId project turn file ↔
        OwesJob scan chunks bufferId project db file) := by
  refine enqueueRlmL1Work_others codec scan jobScan chunks bufferId project now db fun h => ?_
  simpa using List.all_eq_true.mp List.all_takeWhile file h

end Pass

/-! ## What a stream calls for -/

/-- The hashes of the active chunks of a file. -/
def fileActiveHashes (chunks : SeqTable Chunk) (bufferId : Int) (file : String) : List String :=
  (chunks.select fun _ r => r.bufferId == bufferId && r.filePath == file && r.isActive).map
    fun x => sqlHex x.2.hash

def SameHashSet (xs ys : List String) : Prop := xs ⊆ ys ∧ ys ⊆ xs

instance (xs ys : List String) : Decidable (SameHashSet xs ys) := by
  unfold SameHashSet
  exact inferInstance

/-- Some request of the worker under this generation completes the job. -/
def Completes (db : RlmDb) (jobId : Int) (worker : String) (generation : Int) : Prop :=
  ∃ now, (completeRlmJob db jobId worker generation now).2 = true ∨
    ∃ scan input freshNodeId now' pair, (completeRlmJobWithNode scan db jobId worker generation
      input freshNodeId now now').2 = .ok (some pair)

/-- A live job for these hashes, and no lease for other ones. -/
structure Refreshed (codec : PayloadCodec) (project file : String) (hashes : List String)
    (db db' : RlmDb) : Prop where
  live : ∃ x ∈ liveSlots db'.rlmJobs project (1, file),
    SameHashSet (payloadHashes codec x.2.payload) hashes
  cut : ∀ x ∈ fileJobs db.rlmJobs project file, x.2.status = .claimed →
    ¬ SameHashSet (payloadHashes codec x.2.payload) hashes →
    ∀ worker, ¬ Completes db' x.1 worker x.2.generation

/-- A file that changed is refreshed; the jobs of any other stay. -/
def RefreshesFile (codec : PayloadCodec) (old chunks : SeqTable Chunk) (bufferId : Int)
    (project file : String) (db db' : RlmDb) : Prop :=
  if SameHashSet (fileActiveHashes old bufferId file) (fileActiveHashes chunks bufferId file) then
    fileJobs db'.rlmJobs project file = fileJobs db.rlmJobs project file
  else Refreshed codec project file (fileActiveHashes chunks bufferId file) db db'

/-- A row that its volunteer can complete until the lease expires. -/
def RlmJob.leased (r : RlmJob) : Bool :=
  r.status == .claimed && r.claimedBy.isSome && r.leaseExpiresAt.isSome

/-- A row can be completed, under the generation it has, exactly when it is leased. -/
theorem completes_iff {db : RlmDb} {id : Int} {r : RlmJob} (h : (id, r) ∈ db.rlmJobs.rows) :
    (∃ worker, Completes db id worker r.generation) ↔ r.leased = true := by
  have hrow : ∀ {r' : RlmJob}, (id, r') ∈ db.rlmJobs.rows → r' = r :=
    fun hr' => Table.eq_of_mem hr' h
  have hleased : ∀ {worker : String} {now : Int}, r.status = .claimed →
      completionValid r worker r.generation now = true → r.leased = true := by
    intro worker now hs hv
    simp only [completionValid, Bool.and_eq_true, beq_iff_eq, Option.any_eq_true] at hv
    obtain ⟨⟨hby, -⟩, l, hl, -⟩ := hv
    simp [RlmJob.leased, hs, hby, hl]
  constructor
  · rintro ⟨worker, now, hdone | ⟨scan, input, freshNodeId, now', pair, hdone⟩⟩
    · rcases completeRlmJob_cases db id worker r.generation now with hn | ⟨r', hr', hs, hv, -⟩
      · rw [hn] at hdone
        cases hdone
      · rw [hrow hr'] at hs hv
        exact hleased hs hv
    · rcases completeRlmJobWithNode_cases db scan id worker r.generation input freshNodeId now now'
        with ⟨o, ho, hne⟩ | ⟨r', nodes, pair', hr', hs, hv, -⟩
      · rw [ho] at hdone
        exact absurd hdone (hne pair)
      · rw [hrow hr'] at hs hv
        exact hleased hs hv
  · intro hl
    simp only [RlmJob.leased, Bool.and_eq_true, beq_iff_eq, Option.isSome_iff_exists] at hl
    obtain ⟨⟨hs, worker, hby⟩, l, hexp⟩ := hl
    have hv : completionValid r worker r.generation l = true := by
      simp [completionValid, hby, hexp]
    refine ⟨worker, l, .inl ?_⟩
    have hcount : 0 < db.rlmJobs.count fun i _ => i == id :=
      List.length_pos_of_mem (Table.mem_select.mpr ⟨h, beq_self_eq_true id⟩)
    unfold completeRlmJob
    rw [probeClaimed_eq_some.mpr ⟨h, hs⟩]
    dsimp only
    rw [hv]
    exact decide_eq_true hcount

section Refresh

variable (codec : PayloadCodec) (scan : ScanOrder RlmNode) (jobScan : ScanOrder RlmJob)
variable (old : SeqTable Chunk) (e : StreamEnd) (db : RlmDb) (now : Int) (file : String)

/-- The pass comes to the file, and the file owes a job. -/
def Enqueues : Prop :=
  Reached codec scan jobScan e.chunks e.bufferId e.project now db e.files file ∧
    OwesJob scan e.chunks e.bufferId e.project db file

instance : Decidable (Enqueues codec scan jobScan e db now file) := by
  unfold Enqueues
  exact inferInstance

/-- A file that did not change owes no job. One that did has a live job for its active chunks and
no lease for others already, or owes one, its key is free, and no retired row of it has a hash
that its active ones do not have. -/
def RefreshHolds : Prop :=
  let hashes := fileActiveHashes e.chunks e.bufferId file
  let taken := KeyTaken (atTurn codec scan jobScan e.chunks e.bufferId e.project now db e.files
    file).rlmJobs e.project file
  if SameHashSet (fileActiveHashes old e.bufferId file) hashes then
    Enqueues codec scan jobScan e db now file →
      taken ∧ fileJobs db.rlmJobs e.project file = []
  else if liveSlots db.rlmJobs e.project (1, file) = [] then
    Enqueues codec scan jobScan e db now file ∧ ¬ taken ∧
      SameHashSet (snapshotHashes (rlmChunksSnapshot e.chunks e.bufferId file)) hashes
  else
    (∃ x ∈ liveSlots db.rlmJobs e.project (1, file),
      SameHashSet (payloadHashes codec x.2.payload) hashes) ∧
    ∀ x ∈ fileJobs db.rlmJobs e.project file, x.2.leased = true →
      SameHashSet (payloadHashes codec x.2.payload) hashes

instance : Decidable (RefreshHolds codec scan jobScan old e db now file) := by
  unfold RefreshHolds
  exact inferInstance

variable {codec scan jobScan old e db now file}

/-- The jobs of the file after the pass. -/
theorem refresh_fileJobs :
    let after := fileJobs (enqueueRlmL1Work codec scan jobScan e.chunks e.bufferId e.project now db
      e.files).1.rlmJobs e.project file
    if Enqueues codec scan jobScan e db now file then
      if KeyTaken (atTurn codec scan jobScan e.chunks e.bufferId e.project now db e.files
          file).rlmJobs e.project file then after = []
      else ∃ id r, r.status = .pending ∧ r.payload = codec.encode (filePayload
        (rlmChunksSnapshot e.chunks e.bufferId file)) ∧ after = [(id, r)]
    else after = fileJobs db.rlmJobs e.project file := by
  have hfiles : e.files.Nodup := List.nodup_dedup _
  have hpass := enqueueRlmL1Work_fileJobs codec scan jobScan e.chunks e.bufferId e.project now db
    hfiles file
  obtain ⟨hjobs, howes⟩ := atTurn_file codec scan jobScan e.chunks e.bufferId e.project now db
    e.files file
  have hown := enqueueL1File_own codec scan jobScan e.chunks e.bufferId e.project now
    (atTurn codec scan jobScan e.chunks e.bufferId e.project now db e.files file) file
  dsimp only at hpass hjobs howes hown ⊢
  by_cases hr : Reached codec scan jobScan e.chunks e.bufferId e.project now db e.files file
  · rw [if_pos hr] at hpass
    rw [hpass]
    by_cases ho : OwesJob scan e.chunks e.bufferId e.project db file
    · have hen : Enqueues codec scan jobScan e db now file := ⟨hr, ho⟩
      rw [if_pos (howes.mpr ho)] at hown
      rw [if_pos hen]
      exact hown
    · have hnot : ¬ Enqueues codec scan jobScan e db now file := fun h => ho h.2
      rw [if_neg fun h => ho (howes.mp h)] at hown
      rw [if_neg hnot, hown, hjobs]
  · have hnot : ¬ Enqueues codec scan jobScan e db now file := fun h => hr h.1
    rw [if_neg hr] at hpass
    rw [if_neg hnot, hpass]

/-- While its jobs stay, a file is refreshed exactly when it was before. -/
theorem refreshed_of_kept {db' : RlmDb} {project : String} {hashes : List String}
    (hkept : fileJobs db'.rlmJobs project file = fileJobs db.rlmJobs project file) :
    Refreshed codec project file hashes db db' ↔
      (∃ x ∈ liveSlots db.rlmJobs project (1, file),
        SameHashSet (payloadHashes codec x.2.payload) hashes) ∧
      ∀ x ∈ fileJobs db.rlmJobs project file, x.2.leased = true →
        SameHashSet (payloadHashes codec x.2.payload) hashes := by
  have hlive : liveSlots db'.rlmJobs project (1, file) =
      liveSlots db.rlmJobs project (1, file) := by
    rw [liveSlots_file, liveSlots_file, hkept]
  have hleased : ∀ x ∈ fileJobs db.rlmJobs project file,
      (∃ worker, Completes db' x.1 worker x.2.generation) ↔ x.2.leased = true := by
    intro x hx
    exact completes_iff (mem_fileJobs.mp (hkept ▸ hx)).1
  constructor
  · rintro ⟨h, hcut⟩
    refine ⟨hlive ▸ h, fun x hx hl => ?_⟩
    by_contra hne
    obtain ⟨worker, hdone⟩ := (hleased x hx).mpr hl
    simp only [RlmJob.leased, Bool.and_eq_true, beq_iff_eq] at hl
    exact hcut x hx hl.1.1 hne worker hdone
  · rintro ⟨h, hsame⟩
    refine ⟨hlive ▸ h, fun x hx _ hne worker hdone => hne (hsame x hx ?_)⟩
    exact (hleased x hx).mp ⟨worker, hdone⟩

/-- A file that gets a new job is refreshed exactly when the job has the hashes. -/
theorem refreshed_of_new {db' : RlmDb} {project : String} {hashes : List String} {id : Int}
    {r : RlmJob} (hidle : liveSlots db.rlmJobs project (1, file) = [])
    (hstatus : r.status = .pending) (hrow : fileJobs db'.rlmJobs project file = [(id, r)]) :
    Refreshed codec project file hashes db db' ↔
      SameHashSet (payloadHashes codec r.payload) hashes := by
  have hlive : liveSlots db'.rlmJobs project (1, file) = [(id, r)] := by
    rw [liveSlots_file, hrow]
    simp [RlmJob.live, hstatus]
  constructor
  · intro h
    obtain ⟨x, hx, hsame⟩ := h.live
    rw [hlive, List.mem_singleton] at hx
    rw [hx] at hsame
    exact hsame
  · intro h
    refine ⟨⟨(id, r), hlive ▸ List.mem_singleton_self _, h⟩, fun x hx hs => ?_⟩
    rw [liveSlots_file] at hidle
    have hnone := List.filter_eq_nil_iff.mp hidle x hx
    simp [RlmJob.live, hs] at hnone

/-- The pass leaves a file as the stream calls for exactly under these conditions. -/
theorem l1_work_refreshes (hcodec : codec.decode (codec.encode (filePayload
      (rlmChunksSnapshot e.chunks e.bufferId file))) =
        some (filePayload (rlmChunksSnapshot e.chunks e.bufferId file))) :
    RefreshesFile codec old e.chunks e.bufferId e.project file db
        (enqueueRlmL1Work codec scan jobScan e.chunks e.bufferId e.project now db e.files).1 ↔
      RefreshHolds codec scan jobScan old e db now file := by
  have hafter := @refresh_fileJobs codec scan jobScan e db now file
  unfold RefreshesFile RefreshHolds
  dsimp only at hafter ⊢
  by_cases hsame : SameHashSet (fileActiveHashes old e.bufferId file)
      (fileActiveHashes e.chunks e.bufferId file)
  · rw [if_pos hsame, if_pos hsame]
    by_cases hen : Enqueues codec scan jobScan e db now file
    · rw [if_pos hen] at hafter
      split at hafter
      · rename_i htaken
        rw [hafter, eq_comm]
        exact ⟨fun h _ => ⟨htaken, h⟩, fun h => (h hen).2⟩
      · rename_i htaken
        obtain ⟨id, r, hstatus, -, hrow⟩ := hafter
        refine iff_of_false (fun h => ?_) fun h => htaken (h hen).1
        have hidle := hen.2.2
        rw [liveSlots_file, ← h, hrow] at hidle
        simp [RlmJob.live, hstatus] at hidle
    · rw [if_neg hen] at hafter
      exact iff_of_true hafter fun h => absurd h hen
  · rw [if_neg hsame, if_neg hsame]
    by_cases hidle : liveSlots db.rlmJobs e.project (1, file) = []
    · rw [if_pos hidle]
      by_cases hen : Enqueues codec scan jobScan e db now file
      · rw [if_pos hen] at hafter
        split at hafter
        · rename_i htaken
          refine iff_of_false (fun h => ?_) fun h => h.2.1 htaken
          obtain ⟨x, hx, -⟩ := h.live
          rw [liveSlots_file, hafter] at hx
          cases hx
        · rename_i htaken
          obtain ⟨id, r, hstatus, hpayload, hrow⟩ := hafter
          rw [refreshed_of_new hidle hstatus hrow, hpayload, payloadHashes, hcodec]
          exact ⟨fun h => ⟨hen, htaken, h⟩, fun h => h.2.2⟩
      · rw [if_neg hen] at hafter
        refine iff_of_false (fun h => ?_) fun h => hen h.1
        obtain ⟨x, hx, -⟩ := h.live
        rw [liveSlots_file, hafter, ← liveSlots_file, hidle] at hx
        cases hx
    · rw [if_neg hidle]
      have hnot : ¬ Enqueues codec scan jobScan e db now file := fun h => hidle h.2.2
      rw [if_neg hnot] at hafter
      exact refreshed_of_kept hafter

end Refresh

/-! ## A file that changes twice -/

def firstEnd : StreamEnd :=
  (streamEnd sampleIndexer .empty [.init "p" "/r", .file "a.rs" (some "a")]).get (by decide +kernel)

def firstIndexed : IndexDb :=
  (indexStreamLoop sampleIndexer .empty [.init "p" "/r", .file "a.rs" (some "a")]).1

def secondEnd : StreamEnd :=
  (streamEnd sampleIndexer firstIndexed [.init "p" "/r", .file "a.rs" (some "b")]).get
    (by decide +kernel)

def refreshCodec : PayloadCodec :=
  sampleCodec [filePayload (rlmChunksSnapshot firstEnd.chunks 1 "a.rs"),
    filePayload (rlmChunksSnapshot secondEnd.chunks 1 "a.rs")]

/-- The queue after the first stream. -/
def firstQueue : RlmDb :=
  (enqueueRlmL1Work refreshCodec .rowid .rowid firstEnd.chunks 1 "p" 1 .empty firstEnd.files).1

/-- The pass of the second stream. -/
def secondPass (db : RlmDb) : RlmDb :=
  (enqueueRlmL1Work refreshCodec .rowid .rowid secondEnd.chunks 1 "p" 9 db secondEnd.files).1

/-- A new file gets its job. -/
theorem l1_work_refreshes_new : RefreshesFile refreshCodec .empty firstEnd.chunks firstEnd.bufferId
    firstEnd.project "a.rs" .empty (enqueueRlmL1Work refreshCodec .rowid .rowid firstEnd.chunks
      firstEnd.bufferId firstEnd.project 1 .empty firstEnd.files).1 :=
  (@l1_work_refreshes refreshCodec .rowid .rowid .empty firstEnd .empty 1 "a.rs"
    (by decide +kernel)).mpr (by decide +kernel)

/-- Its job is claimed when the file changes, and stays so, for the old hashes. -/
def claimedFile : RlmDb := (claimRlmJob .rowid firstQueue "ann" 60000 none 3 2).1

/-- Its job is done when the file changes, and the new one has the hashes of all versions. -/
def doneFile : RlmDb := (completeRlmJob claimedFile 1 "ann" 0 3).1

theorem l1_work_refreshes_changed :
    ¬ RefreshesFile refreshCodec firstEnd.chunks secondEnd.chunks 1 "p" "a.rs" claimedFile
        (secondPass claimedFile) ∧
      (completeRlmJob (secondPass claimedFile) 1 "ann" 0 10).2 = true ∧
      ¬ RefreshesFile refreshCodec firstEnd.chunks secondEnd.chunks 1 "p" "a.rs" doneFile
        (secondPass doneFile) := by
  let hashes := fileActiveHashes secondEnd.chunks 1 "a.rs"
  have hstate : ¬ SameHashSet (fileActiveHashes firstEnd.chunks 1 "a.rs") hashes ∧
      (¬ ∃ x ∈ liveSlots (secondPass claimedFile).rlmJobs "p" (1, "a.rs"),
        SameHashSet (payloadHashes refreshCodec x.2.payload) hashes) ∧
      (completeRlmJob (secondPass claimedFile) 1 "ann" 0 10).2 = true ∧
      ¬ ∃ x ∈ liveSlots (secondPass doneFile).rlmJobs "p" (1, "a.rs"),
        SameHashSet (payloadHashes refreshCodec x.2.payload) hashes := by
    decide +kernel
  obtain ⟨hchanged, hclaimed, hcompletes, hdone⟩ := hstate
  refine ⟨fun h => ?_, hcompletes, fun h => ?_⟩
  · rw [RefreshesFile, if_neg hchanged] at h
    exact hclaimed h.live
  · rw [RefreshesFile, if_neg hchanged] at h
    exact hdone h.live

end Arags
