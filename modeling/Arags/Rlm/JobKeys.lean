import Arags.Rlm.Supply

/-!
# Arags.Rlm.JobKeys

`job_key` is the level, the project and the subject joined by `:`, with `#slot` behind them when
the subject has several slots. Projects and subjects are free text.

* `JobSlot.key_eq_iff` — which two slots have one key.
* `job_keys_distinct`  — when the keys of two slots differ, and what an enqueue does to the rows of
  the other subjects.
-/

namespace Arags

open Sql

/-- A slot of a subject that is fanned out to `slots` slots. -/
structure JobSlot where
  project : String
  level : Int
  subject : String
  slots : Nat
  slot : Nat
  inGroup : slot < slots

namespace JobSlot

def subjectId (a : JobSlot) : SubjectId := ⟨a.project, a.level, a.subject⟩

/-- The key that `insertRlmSlots` stores. -/
def key (a : JobSlot) : String := slotKey (rlmJobKey a.project a.level a.subject) a.slots a.slot

/-- The subject with the suffix of the slot. -/
def label (a : JobSlot) : String := slotKey a.subject a.slots a.slot

/-- The key of `a` can be read as that of `b`: the only slot of a subject that ends in the suffix
of `b`, or a project that ends where that of `b` has a colon. -/
def Resplit (a b : JobSlot) : Prop :=
  a.level = b.level ∧
    (a.project = b.project ∧ a.slots = 1 ∧ b.slots ≠ 1 ∧
        a.subject = b.subject ++ "#" ++ toString b.slot ∨
      ∃ q, b.project = a.project ++ ":" ++ q ∧ a.label = q ++ ":" ++ b.label)

def Clash (a b : JobSlot) : Prop := Resplit a b ∨ Resplit b a

theorem toList_label (a : JobSlot) : a.label.toList =
    if a.slots = 1 then a.subject.toList else a.subject.toList ++ '#' :: a.slot.repr.toList := by
  unfold label slotKey
  split
  · rename_i h
    rw [if_pos (beq_iff_eq.mp h)]
  · rename_i h
    rw [if_neg (mt beq_iff_eq.mpr h)]
    simp only [toString, String.toList_append, List.append_assoc]
    rfl

theorem key_eq (a : JobSlot) : a.key = rlmJobKey a.project a.level a.label := by
  unfold key label slotKey
  split
  · rfl
  · rw [← String.toList_inj, toList_rlmJobKey]
    simp only [toString, String.toList_append, toList_rlmJobKey, List.append_assoc,
      List.cons_append]

/-- With several slots on both sides, or one on both, the label determines subject and slot. -/
theorem label_inj {a b : JobSlot} (h : a.label = b.label) (hs : a.slots = 1 ↔ b.slots = 1) :
    a.subject = b.subject ∧ a.slot = b.slot := by
  have hlist := congrArg String.toList h
  rw [toList_label, toList_label] at hlist
  by_cases ha : a.slots = 1
  · have hb := hs.mp ha
    rw [if_pos ha, if_pos hb] at hlist
    have hslota := a.inGroup
    have hslotb := b.inGroup
    exact ⟨String.toList_inj.mp hlist, by omega⟩
  · rw [if_neg ha, if_neg (mt hs.mpr ha)] at hlist
    obtain ⟨hsub, hslot⟩ := Text.sep_append_inj (Text.not_mem_repr_nat (by decide) a.slot)
      (Text.not_mem_repr_nat (by decide) b.slot) hlist
    exact ⟨String.toList_inj.mp hsub, Text.repr_nat_inj (String.toList_inj.mp hslot)⟩

theorem label_eq_single {a b : JobSlot} (ha : a.slots = 1) (hb : b.slots ≠ 1) :
    a.label = b.label ↔ a.subject = b.subject ++ "#" ++ toString b.slot := by
  rw [← String.toList_inj, toList_label, toList_label, if_pos ha, if_neg hb, ← String.toList_inj]
  simp only [String.toList_append, List.append_assoc]
  rfl

theorem key_eq_iff (a b : JobSlot) : a.key = b.key ↔ a.level = b.level ∧
    (a.project = b.project ∧ a.label = b.label ∨
      (∃ q, b.project = a.project ++ ":" ++ q ∧ a.label = q ++ ":" ++ b.label) ∨
        ∃ q, a.project = b.project ++ ":" ++ q ∧ b.label = q ++ ":" ++ a.label) := by
  have hsplit : ∀ p s p' s' : String, (∃ q, p' = p ++ ":" ++ q ∧ s = q ++ ":" ++ s') ↔
      ∃ q, p'.toList = p.toList ++ ':' :: q ∧ s.toList = q ++ ':' :: s'.toList := by
    intro p s p' s'
    constructor
    · rintro ⟨q, rfl, rfl⟩
      simp only [String.toList_append, List.append_assoc]
      exact ⟨q.toList, rfl, rfl⟩
    · rintro ⟨q, hp, hs⟩
      refine ⟨String.ofList q, ?_, ?_⟩
      · rw [← String.toList_inj, hp]
        simp only [String.toList_append, String.toList_ofList, List.append_assoc]
        rfl
      · rw [← String.toList_inj, hs]
        simp only [String.toList_append, String.toList_ofList, List.append_assoc]
        rfl
  rw [key_eq, key_eq, hsplit, hsplit, ← String.toList_inj, toList_rlmJobKey, toList_rlmJobKey,
    ← @String.toList_inj a.project, ← @String.toList_inj a.label,
    ← Text.append_sep_eq_iff, List.cons.injEq]
  constructor
  · rintro ⟨-, h⟩
    obtain ⟨hl, hrest⟩ := Text.append_sep_inj
      (Text.not_mem_repr_int (by decide) (by decide) a.level)
      (Text.not_mem_repr_int (by decide) (by decide) b.level) h
    exact ⟨Text.repr_int_inj (String.toList_inj.mp hl), hrest⟩
  · rintro ⟨hl, hrest⟩
    rw [hl, hrest]
    exact ⟨rfl, rfl⟩

theorem Resplit.key_eq {a b : JobSlot} (h : Resplit a b) : a.key = b.key := by
  obtain ⟨hl, ⟨hp, ha, hb, hs⟩ | hq⟩ := h
  · exact (key_eq_iff a b).mpr ⟨hl, .inl ⟨hp, (label_eq_single ha hb).mpr hs⟩⟩
  · exact (key_eq_iff a b).mpr ⟨hl, .inr (.inl hq)⟩

/-- A text is not itself with something behind it. -/
theorem ne_append {s t : String} (ht : t ≠ "") : s ≠ s ++ t := by
  intro h
  have hlist := congrArg String.toList h
  rw [String.toList_append, List.self_eq_append_right] at hlist
  exact ht (String.toList_inj.mp hlist)

end JobSlot

/-! ## When keys differ -/

theorem JobSlot.Resplit.ne {a b : JobSlot} (h : Resplit a b) : a.subjectId ≠ b.subjectId := by
  intro he
  obtain ⟨hp, -, hs⟩ := SubjectId.mk.inj he
  obtain ⟨-, ⟨-, -, -, hsub⟩ | ⟨q, hq, -⟩⟩ := h
  · rw [hs, String.append_assoc] at hsub
    exact ne_append (by simp) hsub
  · rw [hp, String.append_assoc] at hq
    exact ne_append (by simp) hq

/-- One key stands for two subjects or slots exactly where it can be split in two ways. -/
theorem JobSlot.clash_iff (a b : JobSlot) :
    Clash a b ↔ (a.subjectId, a.slot) ≠ (b.subjectId, b.slot) ∧ a.key = b.key := by
  constructor
  · rintro (h | h)
    · exact ⟨fun he => h.ne (Prod.mk.inj he).1, h.key_eq⟩
    · exact ⟨fun he => h.ne (Prod.mk.inj he).1.symm, h.key_eq.symm⟩
  · rintro ⟨hne, hkey⟩
    obtain ⟨hl, ⟨hp, hlabel⟩ | hq | hq⟩ := (key_eq_iff a b).mp hkey
    · by_cases ha : a.slots = 1 <;> by_cases hb : b.slots = 1
      · obtain ⟨hs, hk⟩ := label_inj hlabel (iff_of_true ha hb)
        exact absurd (by rw [subjectId, subjectId, hp, hl, hs, hk]) hne
      · exact .inl ⟨hl, .inl ⟨hp, ha, hb, (label_eq_single ha hb).mp hlabel⟩⟩
      · exact .inr ⟨hl.symm, .inl ⟨hp.symm, hb, ha, (label_eq_single hb ha).mp hlabel.symm⟩⟩
      · obtain ⟨hs, hk⟩ := label_inj hlabel (iff_of_false ha hb)
        exact absurd (by rw [subjectId, subjectId, hp, hl, hs, hk]) hne
    · exact .inl ⟨hl, .inr hq⟩
    · exact .inr ⟨hl.symm, .inr hq⟩

/-! ## What an enqueue meets -/

/-- The slot `k` of a job. -/
def NewRlmJob.slotAt (job : NewRlmJob) (k : Nat) (hk : k < max job.quorumSlots 1) : JobSlot where
  project := job.project
  level := job.level
  subject := job.subject
  slots := max job.quorumSlots 1
  slot := k
  inGroup := hk

/-- A row that was inserted as the slot `a`. -/
def StoredAs (r : RlmJob) (a : JobSlot) : Prop := r.subjectId = a.subjectId ∧ r.jobKey = a.key

/-- Every row was inserted as a slot of its subject. -/
def KeyedRows (t : Table RlmJob) : Prop := ∀ x ∈ t.rows, ∃ a, StoredAs x.2 a

theorem KeyedRows.update {t : Table RlmJob} {p : Int → RlmJob → Bool}
    {f : Int → RlmJob → RlmJob} (h : KeyedRows t)
    (hf : ∀ i r, (f i r).subjectId = r.subjectId ∧ (f i r).jobKey = r.jobKey) :
    KeyedRows (t.update p f) := by
  rintro ⟨i, r'⟩ hx
  obtain ⟨r, hr, rfl⟩ := Table.mem_update.mp hx
  obtain ⟨a, hsub, hkey⟩ := h (i, r) hr
  refine ⟨a, ?_⟩
  dsimp only
  split
  · exact ⟨(hf i r).1.trans hsub, (hf i r).2.trans hkey⟩
  · exact ⟨hsub, hkey⟩

theorem KeyedRows.step {db : RlmDb} (h : KeyedRows db.rlmJobs) (op : QueueOp) :
    KeyedRows (step db op).rlmJobs := by
  cases op with
  | enqueue scan job exclude now =>
    obtain ⟨-, hdb⟩ | ⟨-, group, generation, n, hins⟩ :=
      enqueueRlmJob_cases db scan job exclude now
    · show KeyedRows (enqueueRlmJob scan db job exclude now).1.rlmJobs
      rw [hdb]
      exact h
    · rintro ⟨i, r⟩ hx
      obtain hold | ⟨k, hk, -, rfl⟩ := (hins.rows i r).mp hx
      · exact h _ (Inserts.of_other hold).1
      · exact ⟨job.slotAt k (Nat.lt_of_lt_of_le hk hins.count_le), rfl, rfl⟩
  | claim scan v leaseMs maxLevel limit now =>
    obtain hc | ⟨i, r, -, -, hc⟩ := claimRlmJob_cases db scan v leaseMs maxLevel limit now
    · simp only [Arags.step, hc]
      exact h
    · simp only [Arags.step, hc]
      exact h.update fun _ _ => ⟨rfl, rfl⟩
  | complete jobId worker gen now =>
    obtain hc | ⟨r, -, -, -, hc⟩ := completeRlmJob_cases db jobId worker gen now
    · simp only [Arags.step, hc]
      exact h
    · simp only [Arags.step, hc]
      exact h.update fun _ _ => ⟨rfl, rfl⟩
  | completeWithNode scan jobId worker gen input nodeId now now' =>
    obtain ⟨o, hc, -⟩ | ⟨r, nodes, pair, -, -, -, -, hc⟩ :=
      completeRlmJobWithNode_cases db scan jobId worker gen input nodeId now now'
    · simp only [Arags.step, hc]
      exact h
    · simp only [Arags.step, hc]
      exact h.update fun _ _ => ⟨rfl, rfl⟩
  | fail jobId worker error maxAttempts now => exact h.update fun _ _ => ⟨rfl, rfl⟩
  | cancel project subjects now =>
    show KeyedRows (subjects.foldl (fun db s => cancelSubject db project s now) db).rlmJobs
    induction subjects generalizing db with
    | nil => exact h
    | cons s subjects ih => exact ih (h.update fun _ _ => ⟨rfl, rfl⟩)
  | requeue now => exact h.update fun _ _ => ⟨rfl, rfl⟩
  | updatePayload project level subject payload now => exact h.update fun _ _ => ⟨rfl, rfl⟩
  | trust ledger => exact h

theorem keyedRows_run (ops : List QueueOp) : KeyedRows (ops.foldl step RlmDb.empty).rlmJobs := by
  have hrun : ∀ db : RlmDb, KeyedRows db.rlmJobs → KeyedRows (ops.foldl step db).rlmJobs := by
    induction ops with
    | nil => exact fun _ h => h
    | cons op ops ih => exact fun db h => ih _ (h.step op)
  exact hrun RlmDb.empty (by rintro x ⟨⟩)

/-! ## When an enqueue fails -/

theorem insertRlmSlots_isOk {t : Table RlmJob} {rs : List RlmJob}
    (hnodup : (rs.map fun r => r.jobKey).Nodup) (first : Int) :
    (insertRlmSlots t rs first).2.isOk = true ↔
      ∀ r ∈ rs, ∀ x ∈ t.rows, x.2.jobKey ≠ r.jobKey := by
  induction rs generalizing t first with
  | nil => exact iff_of_true rfl fun r hr => absurd hr List.not_mem_nil
  | cons r rs ih =>
    rw [List.map_cons, List.nodup_cons] at hnodup
    rw [insertRlmSlots, List.forall_mem_cons]
    split
    · rename_i htaken
      obtain ⟨x, hx, hkey⟩ := List.any_eq_true.mp htaken
      exact iff_of_false Bool.false_ne_true fun h => h.1 x hx (beq_iff_eq.mp hkey)
    · rename_i hopen
      rw [ih hnodup.2]
      constructor
      · intro h
        refine ⟨fun x hx hkey => ?_, fun s hs x hx => h s hs x (Table.mem_insert.mpr (.inl hx))⟩
        exact hopen (List.any_eq_true.mpr ⟨x, hx, beq_iff_eq.mpr hkey⟩)
      · rintro ⟨-, h⟩ s hs x hx hkey
        obtain hx | ⟨-, he⟩ := Table.mem_insert.mp hx
        · exact h s hs x hx hkey
        · refine hnodup.1 ?_
          rw [← he, hkey]
          exact List.mem_map_of_mem (f := fun r => r.jobKey) hs

theorem createSlots_isOk (db : RlmDb) {job : NewRlmJob} (exclude : List String)
    (groupId generation : Int) (createdNew : Bool) (now : Int)
    (hnone : ∀ x ∈ db.rlmJobs.rows, x.2.subjectId ≠ job.subjectId) :
    (createSlots db job exclude groupId generation createdNew now).2.isOk = true ↔
      KeysFree db.rlmJobs job.subjectId (max job.quorumSlots 1) := by
  have hmap : (createSlots db job exclude groupId generation createdNew now).2.isOk =
      (insertRlmSlots db.rlmJobs (newRows job groupId generation now) 0).2.isOk := by
    show ((insertRlmSlots db.rlmJobs (newRows job groupId generation now) 0).2.map _).isOk = _
    cases (insertRlmSlots db.rlmJobs (newRows job groupId generation now) 0).2 with
    | error e => rfl
    | ok first => rfl
  rw [hmap, insertRlmSlots_isOk (newRows_nodup job groupId generation now)]
  constructor
  · intro h x hx _ k hk
    exact h _ (List.mem_map_of_mem (List.mem_range.mpr hk)) x hx
  · intro h r hr x hx
    obtain ⟨k, hk, rfl⟩ := List.mem_map.mp hr
    exact h x hx (hnone x hx) k (List.mem_range.mp hk)

theorem otherRows_keysFree {t : Table RlmJob} {job : NewRlmJob} {slots : Nat} :
    KeysFree (otherRows t job) job.subjectId slots ↔ KeysFree t job.subjectId slots := by
  constructor
  · exact fun h x hx hne => h x (mem_otherRows.mpr ⟨hx, hne⟩) hne
  · exact fun h x hx => h x (mem_otherRows.mp hx).1

/-- An enqueue fails only where a row of another subject has one of its keys. -/
theorem enqueueRlmJob_isOk {scan : ScanOrder RlmJob} {db : RlmDb} {job : NewRlmJob}
    (exclude : List String) (now : Int) :
    (enqueueRlmJob scan db job exclude now).2.isOk = true ↔
      slotsOf db.rlmJobs job.subjectId ≠ 0 ∨
        KeysFree db.rlmJobs job.subjectId (max job.quorumSlots 1) := by
  by_cases hidle : slotsOf db.rlmJobs job.subjectId = 0
  · obtain ⟨group, generation, new, hcreate⟩ := enqueueRlmJob_idle scan exclude now hidle
    rw [hcreate, createSlots_isOk _ _ _ _ _ _ fun x hx => otherRows_subject hx,
      otherRows_keysFree, hidle]
    simp
  · refine iff_of_true ?_ (.inl hidle)
    cases he : existingSlots scan db.rlmJobs job with
    | nil =>
      refine absurd ?_ hidle
      exact existingSlots_live.mp (by rw [he]; rfl)
    | cons first rest =>
      have hl : (first :: rest).any (fun x => x.2.live) = true := by
        rw [← he, ← Bool.not_eq_false]
        exact mt existingSlots_live.mp hidle
      simp only [enqueueRlmJob, he, hl, if_true]
      rfl

/-- Two slots have different keys unless these split in two ways. No enqueue touches a row of
another subject, and it fails exactly where such a row was stored as a slot that clashes with one
of its own. -/
theorem job_keys_distinct (ops : List QueueOp) (scan : ScanOrder RlmJob) (job : NewRlmJob)
    (exclude : List String) (now : Int) :
    (∀ a b : JobSlot, ((a.subjectId, a.slot) ≠ (b.subjectId, b.slot) → a.key ≠ b.key) ↔
      ¬ a.Clash b) ∧
    let db := ops.foldl step RlmDb.empty
    (∀ x, x.2.subjectId ≠ job.subjectId →
      (x ∈ (enqueueRlmJob scan db job exclude now).1.rlmJobs.rows ↔ x ∈ db.rlmJobs.rows)) ∧
    ((enqueueRlmJob scan db job exclude now).2.isOk = false ↔
      slotsOf db.rlmJobs job.subjectId = 0 ∧ ∃ x ∈ db.rlmJobs.rows, ∃ a, StoredAs x.2 a ∧
        ∃ k hk, a.subjectId ≠ job.subjectId ∧ a.Clash (job.slotAt k hk)) := by
  refine ⟨fun a b => ?_, ?_⟩
  · rw [JobSlot.clash_iff, not_and]
  · dsimp only
    generalize hdb : ops.foldl step RlmDb.empty = db
    have hkeyed : KeyedRows db.rlmJobs := hdb ▸ keyedRows_run ops
    refine ⟨?_, ?_⟩
    · rintro ⟨i, r⟩ hne
      obtain ⟨-, hsame⟩ | ⟨-, group, generation, n, hins⟩ :=
        enqueueRlmJob_cases db scan job exclude now
      · rw [hsame]
      · rw [hins.rows]
        constructor
        · rintro (hold | ⟨k, -, -, rfl⟩)
          · exact (Inserts.of_other hold).1
          · exact absurd rfl hne
        · intro hr
          refine .inl (Table.mem_delete.mpr ⟨hr, ?_⟩)
          have ha := isAbout_eq r job.subjectId
          rw [decide_eq_false hne] at ha
          exact ha
    · rw [← Bool.not_eq_true, enqueueRlmJob_isOk, not_or, not_not]
      refine and_congr_right fun _ => ?_
      unfold KeysFree
      push Not
      constructor
      · rintro ⟨x, hx, hne, k, hk, hkey⟩
        obtain ⟨a, hsub, hstored⟩ := hkeyed x hx
        refine ⟨x, hx, a, ⟨hsub, hstored⟩, k, hk, hsub ▸ hne, ?_⟩
        refine (JobSlot.clash_iff ..).mpr ⟨fun he => ?_, hstored.symm.trans hkey⟩
        exact hne (hsub.trans (Prod.mk.inj he).1)
      · rintro ⟨x, hx, a, ⟨hsub, hstored⟩, k, hk, hne, hclash⟩
        refine ⟨x, hx, hsub ▸ hne, k, hk, hstored.trans ?_⟩
        exact ((JobSlot.clash_iff ..).mp hclash).2

/-- A colon in a file's name, or in that of a project. -/
theorem job_keys_distinct_not :
    ¬ ∀ a b : JobSlot, (a.subjectId, a.slot) ≠ (b.subjectId, b.slot) → a.key ≠ b.key := by
  intro h
  exact h ⟨"p", 1, "x:y", 1, 0, by decide⟩ ⟨"p:x", 1, "y", 1, 0, by decide⟩ (by decide) (by decide)

end Arags
