import Arags.Archive.AsOf
import Arags.Rlm.NodeHistory
import Arags.Search.Summary

/-!
# Arags.Search.Approved

Which summaries a search shows. `summary_search` reads the nodes three times, in tasks of their
own: the lexical pass, the hydration of the semantic pass, and the rewrite to the past revision,
which asks for no review status.

* `SummaryReads`, `summarySearchAcross` — the search over the tables its reads find;
  `summarySearchAcross_same` says that it is `summarySearch` when they find the same.
* `ShowsApproved`    — every text that a search returns is that of an approved revision.
* `approved_summaries` — when the searches of a run show approved revisions only.
* `approved_summaries_quiet` — they do where nothing is written between the reads.
-/

namespace Arags

open Sql

/-! ## Reads at different times -/

/-- The nodes as the lexical pass, the semantic pass and the rewrite find them. -/
structure SummaryReads where
  lexical : Table RlmNode
  semantic : Table RlmNode
  rewrite : Table RlmNode

section Search

variable {ε : Type} (env : SummaryEnv ε) (r : SummaryReads) (vectors : AList fun _ : Int => ε)
  (bufferId : Int) (project ftsQuery : String) (topK : Nat) (asOfEpoch : Int)

def summarySearchAcross : Except String (List SummaryCandidate) :=
  match summaryLexical env r.lexical bufferId ftsQuery topK with
  | .error e => .error e
  | .ok lexical =>
    match summarySemantic env r.semantic vectors bufferId ftsQuery topK with
    | .error e => .error e
    | .ok semantic =>
      let fused := fuseSummaries lexical semantic
      let revised :=
        if asOfEpoch > 0 then fused.map (reviseAt r.rewrite project asOfEpoch) else fused
      .ok ((normalizeSummaries (Ranking.best SummaryCandidate.score revised)).take topK)

theorem summarySearchAcross_same (nodes : Table RlmNode) :
    summarySearchAcross env ⟨nodes, nodes, nodes⟩ vectors bufferId project ftsQuery topK asOfEpoch =
      summarySearch env nodes vectors bufferId project ftsQuery topK asOfEpoch := by
  unfold summarySearchAcross summarySearch summaryFused
  dsimp only
  cases summaryLexical env nodes bufferId ftsQuery topK with
  | error e => rfl
  | ok lexical =>
    dsimp only
    cases summarySemantic env nodes vectors bufferId ftsQuery topK <;> rfl

end Search

/-- The revision that a candidate shows: at a past epoch the one that the rewrite finds, else the
row that the candidate was made from. -/
def Shows (r : SummaryReads) (project : String) (T : Int) (c : SummaryCandidate) (m : RlmNode) :
    Prop :=
  (0 < T ∧ ∃ j, getRlmNodeAsOf r.rewrite project c.level c.subject T = some (j, m)) ∨
    ((T ≤ 0 ∨ getRlmNodeAsOf r.rewrite project c.level c.subject T = none) ∧
      ((c.rowid, m) ∈ r.lexical.rows ∨ (c.rowid, m) ∈ r.semantic.rows))

/-- Whatever the indexes and the embedder answer, the texts are those of approved revisions. -/
def ShowsApproved (r : SummaryReads) (bufferId : Int) (project : String) (T : Int) : Prop :=
  ∀ (ε : Type) (env : SummaryEnv ε) (vectors : AList fun _ : Int => ε) (ftsQuery : String)
    (topK : Nat) (found : List SummaryCandidate),
    summarySearchAcross env r vectors bufferId project ftsQuery topK T = .ok found →
    ∀ c ∈ found, ∃ m, Shows r project T c m ∧ c.text = m.summaryText ∧ m.reviewStatus = .approved

/-- The nodes that a pass has served, with a revision of the project that is active when the
rewrite looks. -/
def ActiveApproved (r : SummaryReads) (bufferId : Int) (project : String) : Prop :=
  ∀ x, x ∈ r.lexical.rows ∨ x ∈ r.semantic.rows → x.2.servedBy bufferId = true →
    ∀ y ∈ r.rewrite.rows, y.2.isLive project x.2.level x.2.subject = true →
      y.2.reviewStatus = .approved

/-! ## The revision at a past epoch -/

/-- Each subject has its last revision active, and none is stamped. -/
structure NodesUnstamped (t : Table RlmNode) : Prop where
  versioned : Versioned nodeColumns t
  epochs : ∀ rev ∈ revisionLog nodeColumns t, rev.epoch = 0

namespace NodesUnstamped

variable {t t' : Table RlmNode}

theorem wrote {new : RevisionLog NodeSubject} (h : NodesUnstamped t)
    (hw : Wrote nodeColumns t t' new) (hzero : ∀ rev ∈ new, rev.epoch = 0) :
    NodesUnstamped t' := by
  refine ⟨hw.versioned, fun rev hrev => ?_⟩
  rw [hw.log] at hrev
  rcases List.mem_append.mp hrev with hold | hnew
  · exact h.epochs rev hold
  · exact hzero rev hnew

theorem marks (h : NodesUnstamped t) (hm : Marks nodeColumns t t') : NodesUnstamped t' :=
  ⟨h.versioned.marks hm, hm.log ▸ h.epochs⟩

/-- At every epoch from 0 on, the revision is the active one. -/
theorem getRlmNodeAsOf (h : NodesUnstamped t) {project : String} {level : Int} {subject : String}
    {T : Int} (hT : 0 ≤ T) {x : Int × RlmNode} :
    Arags.getRlmNodeAsOf t project level subject T = some x ↔
      x ∈ t.rows ∧ x.2.isLive project level subject = true := by
  have hid := getRlmNodeAsOf_id t project level subject T
  rw [asOf_unstamped h.versioned.increasing h.epochs hT] at hid
  have hlive : ∀ n : RlmNode, n.isLive project level subject = true ↔
      nodeColumns.subject n = (project, level, subject) ∧ nodeColumns.live n = true := by
    intro n
    simp [RlmNode.isLive, nodeColumns, and_assoc]
  have hread : ∀ y, Arags.getRlmNodeAsOf t project level subject T = some y →
      y ∈ t.rows ∧ nodeColumns.subject y.2 = (project, level, subject) := by
    intro y hy
    obtain ⟨hm, hp⟩ := Table.mem_select.mp (firstBy_mem hy)
    simp only [Bool.and_eq_true, beq_iff_eq] at hp
    exact ⟨hm, by simp [nodeColumns, hp.1.1.1, hp.1.1.2, hp.1.2]⟩
  constructor
  · intro hx
    obtain ⟨hm, hsub⟩ := hread x hx
    refine ⟨hm, (hlive x.2).mpr ⟨hsub, (h.versioned.live x hm).mpr ?_⟩⟩
    rw [hsub, ← hid, hx, Option.map_some]
  · rintro ⟨hm, hl⟩
    obtain ⟨hsub, hactive⟩ := (hlive x.2).mp hl
    have hlatest := (h.versioned.live x hm).mp hactive
    rw [hsub, ← hid, Option.map_eq_some_iff] at hlatest
    obtain ⟨y, hy, hyx⟩ := hlatest
    have hrow : y.2 = x.2 := Table.eq_of_mem (hread y hy).1 (hyx ▸ hm : (y.1, x.2) ∈ t.rows)
    rw [hy, Prod.ext hyx hrow]

end NodesUnstamped

theorem upsertNodeStmt_unstamped {scan : ScanOrder RlmNode} {t t' : Table RlmNode}
    {nodeId : String} {input : NewRlmNode} {now : Int} {out : Int × String}
    (hI : NodesUnstamped t) (h : upsertNodeStmt scan t nodeId input now = .ok (t', out)) :
    NodesUnstamped t' := by
  obtain ⟨new, hw, hzero⟩ := upsertNode_wrote hI.versioned h
  exact hI.wrote hw hzero

theorem publishRlmNodeForSubject_unstamped {scan : ScanOrder RlmNode} {t t' : Table RlmNode}
    {q : QuorumNode} {nodeId : String} {now : Int} {out : Int × String} (hI : NodesUnstamped t)
    (h : publishRlmNodeForSubject scan t q.project q.level q.subject q.summaryText q.sourceHashes
      q.volunteerUsername q.model q.templateVersion q.decidedBy nodeId now = .ok (t', out)) :
    NodesUnstamped t' := by
  unfold publishRlmNodeForSubject at h
  dsimp only at h
  split at h
  · cases h
  rename_i nodes rowid stable hup
  cases h
  exact (upsertNodeStmt_unstamped hI hup).marks
    (.update nodes (fun _ _ => rfl) (fun _ _ => rfl) fun _ _ => rfl)

theorem reviewRlmNode_marks (t : Table RlmNode) (nodeId : String) (approved : Bool)
    (reviewer : String) (now : Int) :
    Marks nodeColumns t (reviewRlmNode t nodeId approved reviewer now) := by
  unfold reviewRlmNode
  refine .update t ?_ ?_ ?_ <;> intro i n <;> rfl

theorem stepNodeWrite_unstamped {db : RlmDb} (hI : NodesUnstamped db.rlmNodes) (w : NodeWrite) :
    NodesUnstamped (stepNodeWrite db w).rlmNodes := by
  unfold stepNodeWrite
  cases w with
  | store scan input nodeId now =>
    simp only [runNodeWrite, storeRlmNode]
    cases h : upsertNodeStmt scan db.rlmNodes nodeId input now with
    | error e => exact hI
    | ok out => exact upsertNodeStmt_unstamped hI h
  | publish scan q nodeId now =>
    simp only [runNodeWrite]
    cases h : publishRlmNodeForSubject scan db.rlmNodes q.project q.level q.subject q.summaryText
        q.sourceHashes q.volunteerUsername q.model q.templateVersion q.decidedBy nodeId now with
    | error e => exact hI
    | ok out => exact publishRlmNodeForSubject_unstamped hI h
  | complete scan jobId worker generation input nodeId now now' =>
    simp only [runNodeWrite]
    rcases completeRlmJobWithNode_cases db scan jobId worker generation input nodeId now now' with
      ⟨o, he, ho⟩ | ⟨r, nodes, pair, -, -, -, hu, he⟩
    · rw [he]
      cases o <;> exact hI
    · rw [he]
      exact upsertNodeStmt_unstamped hI hu
  | review nodeId approved reviewer now =>
    exact hI.marks (reviewRlmNode_marks db.rlmNodes nodeId approved reviewer now)
  | others db' => exact hI

/-- The nodes after a run of writes from an empty table. -/
def nodesAfter (db : RlmDb) (ws : List NodeWrite) : Table RlmNode :=
  (Lts.after stepNodeWrite { db with rlmNodes := Table.empty } ws).rlmNodes

theorem nodesAfter_unstamped (db : RlmDb) (ws : List NodeWrite) :
    NodesUnstamped (nodesAfter db ws) := by
  have hempty : NodesUnstamped ({ db with rlmNodes := Table.empty } : RlmDb).rlmNodes :=
    ⟨.empty, fun rev hrev => by cases hrev⟩
  exact Lts.run_inv (I := fun _ (x : RlmDb) => NodesUnstamped x.rlmNodes) hempty
    (fun _ _ w h => stepNodeWrite_unstamped h w) ws

/-! ## What a search returns -/

section Found

variable {ε : Type} {env : SummaryEnv ε} {r : SummaryReads} {vectors : AList fun _ : Int => ε}
  {bufferId : Int} {project ftsQuery : String} {topK : Nat} {T : Int}

theorem mem_summaryLexical {nodes : Table RlmNode} {found : List (Int × RlmNode)}
    (h : summaryLexical env nodes bufferId ftsQuery topK = .ok found) {x : Int × RlmNode}
    (hx : x ∈ found) : x ∈ nodes.rows ∧ x.2.servedBy bufferId = true := by
  have hread : ∀ {query : String} {found : List (Int × RlmNode)},
      searchRlmFtsLimited env nodes bufferId query topK = .ok found → x ∈ found →
      x ∈ nodes.rows ∧ x.2.servedBy bufferId = true := by
    intro query found h hx
    unfold searchRlmFtsLimited at h
    cases hhits : env.matchFts nodes query with
    | error e =>
      rw [hhits] at h
      cases h
    | ok hits =>
    rw [hhits] at h
    obtain rfl := Except.ok.inj h
    obtain ⟨hm, hp⟩ := Table.mem_select.mp (env.scan.mem_order.mp hx)
    rw [Bool.and_eq_true] at hp
    exact ⟨hm, hp.2⟩
  unfold summaryLexical at h
  dsimp only at h
  split at h
  · cases h
  · rename_i first hfirst
    split at h
    · exact hread h hx
    · cases h
      exact hread hfirst hx

theorem mem_summarySemantic {nodes : Table RlmNode} {found : List (Int × RlmNode)}
    (h : summarySemantic env nodes vectors bufferId ftsQuery topK = .ok found)
    {x : Int × RlmNode} (hx : x ∈ found) : x ∈ nodes.rows ∧ x.2.servedBy bufferId = true := by
  unfold summarySemantic at h
  split at h
  · cases h
    cases hx
  split at h
  · cases h
    cases hx
  split at h
  · cases h
  cases h
  obtain ⟨nb, -, hfind⟩ := List.mem_filterMap.mp hx
  obtain ⟨hm, hp⟩ := Table.mem_select.mp (env.scan.mem_order.mp (List.mem_of_find?_eq_some hfind))
  rw [Bool.and_eq_true] at hp
  exact ⟨hm, hp.2⟩

theorem mem_fuseSummaries {lexical semantic : List (Int × RlmNode)} {c : SummaryCandidate}
    (h : c ∈ fuseSummaries lexical semantic) :
    ∃ x ∈ lexical ++ semantic, ∃ score, c = candidateOf x.1 x.2 score := by
  unfold fuseSummaries at h
  obtain ⟨rowid, -, hx⟩ := List.mem_filterMap.mp h
  obtain ⟨x, hfind, rfl⟩ := Option.map_eq_some_iff.mp hx
  have hid := List.find?_some hfind
  rw [beq_iff_eq] at hid
  exact ⟨x, List.mem_reverse.mp (List.mem_of_find?_eq_some hfind), _, by rw [← hid]⟩

/-- A returned candidate was made from a row that a pass has served, and rewritten. -/
theorem mem_summarySearchAcross {found : List SummaryCandidate}
    (h : summarySearchAcross env r vectors bufferId project ftsQuery topK T = .ok found)
    {c : SummaryCandidate} (hc : c ∈ found) :
    ∃ x, (x ∈ r.lexical.rows ∨ x ∈ r.semantic.rows) ∧ x.2.servedBy bufferId = true ∧
      ∃ score c₀, c₀ = (if T > 0 then reviseAt r.rewrite project T (candidateOf x.1 x.2 score)
        else candidateOf x.1 x.2 score) ∧ c.rowid = c₀.rowid ∧ c.level = c₀.level ∧
          c.subject = c₀.subject ∧ c.text = c₀.text := by
  unfold summarySearchAcross at h
  cases hl : summaryLexical env r.lexical bufferId ftsQuery topK with
  | error e =>
    rw [hl] at h
    cases h
  | ok lexical =>
    rw [hl] at h
    dsimp only at h
    cases hs : summarySemantic env r.semantic vectors bufferId ftsQuery topK with
    | error e =>
      rw [hs] at h
      cases h
    | ok semantic =>
      rw [hs] at h
      obtain rfl := Except.ok.inj h
      obtain ⟨c₁, hc₁, rfl⟩ := List.mem_map.mp (List.mem_of_mem_take hc)
      have hc₁ := (List.perm_insertionSort _ _).mem_iff.mp hc₁
      have hserved : ∀ x ∈ lexical ++ semantic,
          (x ∈ r.lexical.rows ∨ x ∈ r.semantic.rows) ∧ x.2.servedBy bufferId = true := by
        intro x hx
        rcases List.mem_append.mp hx with hx | hx
        · exact ⟨.inl (mem_summaryLexical hl hx).1, (mem_summaryLexical hl hx).2⟩
        · exact ⟨.inr (mem_summarySemantic hs hx).1, (mem_summarySemantic hs hx).2⟩
      by_cases hT : T > 0
      · rw [if_pos hT] at hc₁
        obtain ⟨c₀, hc₀, rfl⟩ := List.mem_map.mp hc₁
        obtain ⟨x, hx, score, rfl⟩ := mem_fuseSummaries hc₀
        exact ⟨x, (hserved x hx).1, (hserved x hx).2, score, _, (if_pos hT).symm, rfl, rfl, rfl,
          rfl⟩
      · rw [if_neg hT] at hc₁
        obtain ⟨x, hx, score, rfl⟩ := mem_fuseSummaries hc₁
        exact ⟨x, (hserved x hx).1, (hserved x hx).2, score, _, (if_neg hT).symm, rfl, rfl, rfl,
          rfl⟩

/-- The level and the subject of a candidate stay. -/
theorem reviseAt_key (nodes : Table RlmNode) (project : String) (T : Int) (c : SummaryCandidate) :
    (reviseAt nodes project T c).rowid = c.rowid ∧ (reviseAt nodes project T c).level = c.level ∧
      (reviseAt nodes project T c).subject = c.subject := by
  unfold reviseAt
  split
  · exact ⟨rfl, rfl, rfl⟩
  · rename_i j m hfound
    have hp := (Table.mem_select.mp (firstBy_mem hfound)).2
    simp only [Bool.and_eq_true, beq_iff_eq] at hp
    exact ⟨rfl, rfl, hp.1.2⟩

end Found

theorem servedBy_approved {n : RlmNode} {bufferId : Int} (h : n.servedBy bufferId = true) :
    n.reviewStatus = .approved := by
  simp only [RlmNode.servedBy, Bool.and_eq_true, beq_iff_eq] at h
  exact h.2

/-! ## Which searches show approved revisions only -/

section Approved

variable {r : SummaryReads} {bufferId : Int} {project : String} {T : Int}

theorem showsApproved_of_active (hrewrite : NodesUnstamped r.rewrite)
    (h : 0 < T → ActiveApproved r bufferId project) : ShowsApproved r bufferId project T := by
  intro ε env vectors ftsQuery topK found hfound c hc
  obtain ⟨x, hx, hserved, score, c₀, he, hrowid, hlevel, hsubject, htext⟩ :=
    mem_summarySearchAcross hfound hc
  by_cases hT : T > 0
  · rw [if_pos hT] at he
    obtain ⟨hrowid₀, hlevel₀, hsubject₀⟩ := reviseAt_key r.rewrite project T
      (candidateOf x.1 x.2 score)
    rw [← he] at hrowid₀ hlevel₀ hsubject₀
    cases hread : getRlmNodeAsOf r.rewrite project x.2.level x.2.subject T with
    | none =>
      have htext₀ : c₀.text = x.2.summaryText := by
        rw [he]
        simp only [reviseAt, candidateOf, hread]
      refine ⟨x.2, .inr ⟨.inr ?_, ?_⟩, htext.trans htext₀, servedBy_approved hserved⟩
      · rw [hlevel, hsubject, hlevel₀, hsubject₀]
        exact hread
      · rw [hrowid, hrowid₀]
        exact hx
    | some y =>
      obtain ⟨hm, hlive⟩ := (hrewrite.getRlmNodeAsOf (Int.le_of_lt hT)).mp hread
      have htext₀ : c₀.text = y.2.summaryText := by
        rw [he]
        simp only [reviseAt, candidateOf, hread]
      refine ⟨y.2, .inl ⟨hT, y.1, ?_⟩, htext.trans htext₀, h hT x hx hserved y hm hlive⟩
      rw [hlevel, hsubject, hlevel₀, hsubject₀]
      exact hread
  · rw [if_neg hT] at he
    subst he
    refine ⟨x.2, .inr ⟨.inl (by omega), ?_⟩, htext, servedBy_approved hserved⟩
    rw [hrowid]
    exact hx

/-- The row of an id, when it passes the filter. -/
theorem select_one {t : Table RlmNode} {x : Int × RlmNode} (hx : x ∈ t.rows)
    {q : RlmNode → Bool} (hq : q x.2 = true) :
    (t.select fun i n => [x.1].contains i && q n) = [x] := by
  refine Table.filter_eq_singleton t.nodup hx ?_ ?_
  · simp [hq]
  · intro y hy hp
    simp only [List.contains_cons, List.contains_nil, Bool.or_false, Bool.and_eq_true,
      beq_iff_eq] at hp
    exact hp.1

/-- The search that a single row answers returns it alone. -/
theorem summarySearchAcross_one {ε : Type} {env : SummaryEnv ε}
    {vectors : AList fun _ : Int => ε} {ftsQuery : String} {lexical semantic : List (Int × RlmNode)}
    {x : Int × RlmNode} (project : String) (hT : 0 < T)
    (hl : summaryLexical env r.lexical bufferId ftsQuery 1 = .ok lexical)
    (hs : summarySemantic env r.semantic vectors bufferId ftsQuery 1 = .ok semantic)
    (hone : lexical ++ semantic = [x]) :
    ∃ c, summarySearchAcross env r vectors bufferId project ftsQuery 1 T = .ok [c] ∧
      c.level = x.2.level ∧ c.subject = x.2.subject := by
  have hfused : ∃ score, fuseSummaries lexical semantic = [candidateOf x.1 x.2 score] := by
    refine ⟨rrfSum lexical x.1 + rrfSum semantic x.1, ?_⟩
    unfold fuseSummaries
    dsimp only
    rw [hone]
    simp [List.insertionSort]
  obtain ⟨score, hfused⟩ := hfused
  obtain ⟨-, hlevel, hsubject⟩ := reviseAt_key r.rewrite project T
    (candidateOf x.1 x.2 score)
  refine ⟨{ reviseAt r.rewrite project T (candidateOf x.1 x.2 score) with
    score := normalizedScore [(reviseAt r.rewrite project T (candidateOf x.1 x.2 score)).score]
      (reviseAt r.rewrite project T (candidateOf x.1 x.2 score)).score }, ?_, hlevel, hsubject⟩
  unfold summarySearchAcross
  rw [hl]
  dsimp only
  rw [hs]
  dsimp only
  rw [hfused, if_pos hT]
  rfl

theorem active_of_showsApproved (hrewrite : NodesUnstamped r.rewrite) (hT : 0 < T)
    (h : ShowsApproved r bufferId project T) : ActiveApproved r bufferId project := by
  intro x hx hserved y hy hlive
  have hread : getRlmNodeAsOf r.rewrite project x.2.level x.2.subject T = some y :=
    (hrewrite.getRlmNodeAsOf (Int.le_of_lt hT)).mpr ⟨hy, hlive⟩
  -- a search that this row alone answers shows the active revision
  have hshown : ∀ (env : SummaryEnv Unit) (vectors : AList fun _ : Int => Unit)
      (lexical semantic : List (Int × RlmNode)),
      summaryLexical env r.lexical bufferId "" 1 = .ok lexical →
      summarySemantic env r.semantic vectors bufferId "" 1 = .ok semantic →
      lexical ++ semantic = [x] → y.2.reviewStatus = .approved := by
    intro env vectors lexical semantic hl hs hone
    obtain ⟨c, hfound, hlevel, hsubject⟩ :=
      summarySearchAcross_one project hT hl hs hone
    obtain ⟨m, hm, -, happroved⟩ := h Unit env vectors "" 1 [c] hfound c List.mem_cons_self
    unfold Shows at hm
    rw [hlevel, hsubject, hread] at hm
    rcases hm with ⟨-, j, hj⟩ | ⟨hnone | hnone, -⟩
    · obtain rfl := Option.some.inj hj
      exact happroved
    · omega
    · cases hnone
  rcases hx with hx | hx
  · refine hshown ⟨fun _ _ => .ok [x.1], .rowid, fun _ => none, false, fun _ _ _ => .ok []⟩ ∅ [x] []
      ?_ rfl rfl
    have hone : searchRlmFts .rowid r.lexical bufferId [x.1] = [x] :=
      select_one hx (q := fun n => n.servedBy bufferId) hserved
    simp only [summaryLexical, searchRlmFtsLimited, Except.map, List.take_succ_cons,
      List.take_zero, hone]
    rfl
  · refine hshown ⟨fun _ _ => .ok [], .rowid, fun _ => some (), true,
      fun _ _ _ => .ok [(x.1, 1)]⟩ ∅ [] [x] ?_ ?_ rfl
    · have hnone : searchRlmFts .rowid r.lexical bufferId [] = [] := by
        refine List.filter_eq_nil_iff.mpr fun y _ => ?_
        simp
      simp only [summaryLexical, searchRlmFtsLimited, Except.map, List.take_nil, hnone]
      split <;> rfl
    · have hone : getApprovedRlmNodes .rowid r.semantic [x.1] bufferId = [x] :=
        select_one hx (q := fun n => n.servedBy bufferId) hserved
      have hbest : Ranking.best Prod.snd [((x.1, 1) : Int × Rat)] = [(x.1, 1)] := rfl
      simp only [summarySemantic, Bool.not_true, Bool.false_eq_true, if_false, hbest,
        List.map_cons, List.map_nil, hone]
      simp

end Approved

/-! ## Runs -/

/-- The reads of a search in a run of writes, newest first: the lexical pass after `ws₁`, the
semantic pass after `ws₂` too, the rewrite after all of them. -/
def readsOf (db : RlmDb) (ws₁ ws₂ ws₃ : List NodeWrite) : SummaryReads where
  lexical := nodesAfter db ws₁
  semantic := nodesAfter db (ws₂ ++ ws₁)
  rewrite := nodesAfter db (ws₃ ++ (ws₂ ++ ws₁))

/-- In every run the searches of a project show approved revisions only, exactly when a search of
the present looks, or each subject of a served node has no active revision without approval by
the time of the rewrite. -/
theorem approved_summaries (db : RlmDb) (ws₁ ws₂ ws₃ : List NodeWrite) (bufferId : Int)
    (project : String) (T : Int) :
    ShowsApproved (readsOf db ws₁ ws₂ ws₃) bufferId project T ↔
      (0 < T → ActiveApproved (readsOf db ws₁ ws₂ ws₃) bufferId project) := by
  have hrewrite : NodesUnstamped (readsOf db ws₁ ws₂ ws₃).rewrite := nodesAfter_unstamped db _
  exact ⟨fun h hT => active_of_showsApproved hrewrite hT h, showsApproved_of_active hrewrite⟩

/-! ## Searches that nothing interrupts -/

/-- What a call files under the buffer is of the project, as the jobs of a buffer are. -/
def FiledUnder (bufferId : Int) (project : String) (w : NodeWrite) : Prop :=
  ∀ input, w.input = some input → input.bufferId = some bufferId → input.project = project

/-- The nodes of the buffer are of the project. -/
def NodesFiled (bufferId : Int) (project : String) (t : Table RlmNode) : Prop :=
  ∀ x ∈ t.rows, x.2.bufferId = some bufferId → x.2.project = project

section Filed

variable {bufferId : Int} {project : String} {t t' : Table RlmNode}

theorem NodesFiled.update {p : Int → RlmNode → Bool} {f : Int → RlmNode → RlmNode}
    (hf : ∀ i n, (f i n).bufferId = n.bufferId ∧ (f i n).project = n.project)
    (h : NodesFiled bufferId project t) : NodesFiled bufferId project (t.update p f) := by
  intro x hx hb
  obtain ⟨n, hn, he⟩ := Table.mem_update.mp hx
  by_cases hp : p x.1 n = true
  · rw [if_pos hp] at he
    rw [he] at hb ⊢
    rw [(hf x.1 n).1] at hb
    rw [(hf x.1 n).2]
    exact h _ hn hb
  · rw [if_neg hp] at he
    rw [he] at hb ⊢
    exact h _ hn hb

theorem upsertNodeStmt_filed {scan : ScanOrder RlmNode} {nodeId : String} {input : NewRlmNode}
    {now : Int} {out : Int × String} (h : NodesFiled bufferId project t)
    (hinput : input.bufferId = some bufferId → input.project = project)
    (hup : upsertNodeStmt scan t nodeId input now = .ok (t', out)) :
    NodesFiled bufferId project t' := by
  rw [upsertNodeStmt_eq] at hup
  dsimp only at hup
  split at hup
  · cases hup
  split at hup
  · cases hup
  cases hup
  generalize priorNode scan t input = prior
  have hretired : NodesFiled bufferId project (retirePrior t prior) := by
    cases prior with
    | none => exact h
    | some old =>
      refine h.update ?_
      intro _ _
      exact ⟨rfl, rfl⟩
  have hinserted : NodesFiled bufferId project
      ((retirePrior t prior).insert (nodeRow input nodeId prior now)) := by
    intro x hx hb
    rcases Table.mem_insert.mp hx with hold | ⟨-, hnew⟩
    · exact hretired x hold hb
    · rw [hnew] at hb ⊢
      exact hinput hb
  cases prior with
  | none => exact hinserted
  | some old =>
    refine hinserted.update ?_
    intro _ _
    exact ⟨rfl, rfl⟩

theorem stepNodeWrite_filed {db : RlmDb} {w : NodeWrite}
    (h : NodesFiled bufferId project db.rlmNodes) (hw : FiledUnder bufferId project w) :
    NodesFiled bufferId project (stepNodeWrite db w).rlmNodes := by
  unfold stepNodeWrite
  cases w with
  | store scan input nodeId now =>
    simp only [runNodeWrite, storeRlmNode]
    cases hup : upsertNodeStmt scan db.rlmNodes nodeId input now with
    | error e => exact h
    | ok out => exact upsertNodeStmt_filed h (hw input rfl) hup
  | publish scan q nodeId now =>
    simp only [runNodeWrite]
    cases hpub : publishRlmNodeForSubject scan db.rlmNodes q.project q.level q.subject
        q.summaryText q.sourceHashes q.volunteerUsername q.model q.templateVersion q.decidedBy
        nodeId now with
    | error e => exact h
    | ok out =>
      unfold publishRlmNodeForSubject at hpub
      dsimp only at hpub
      split at hpub
      · cases hpub
      rename_i nodes rowid stable hup
      cases hpub
      have hnodes := upsertNodeStmt_filed h (hw q.input rfl) hup
      refine hnodes.update ?_
      intro _ _
      exact ⟨rfl, rfl⟩
  | complete scan jobId worker generation input nodeId now now' =>
    simp only [runNodeWrite]
    rcases completeRlmJobWithNode_cases db scan jobId worker generation input nodeId now now' with
      ⟨o, he, ho⟩ | ⟨r, nodes, pair, -, -, -, hup, he⟩
    · rw [he]
      cases o <;> exact h
    · rw [he]
      exact upsertNodeStmt_filed h (hw input rfl) hup
  | review nodeId approved reviewer now =>
    simp only [runNodeWrite, reviewRlmNode]
    refine h.update ?_
    intro _ _
    exact ⟨rfl, rfl⟩
  | others db' => exact h

theorem nodesAfter_filed (db : RlmDb) {ws : List NodeWrite}
    (h : ∀ w ∈ ws, FiledUnder bufferId project w) :
    NodesFiled bufferId project (nodesAfter db ws) := by
  induction ws with
  | nil => intro x hx; cases hx
  | cons w ws ih =>
    obtain ⟨hw, hws⟩ := List.forall_mem_cons.mp h
    exact stepNodeWrite_filed (ih hws) hw

end Filed

/-- Where nothing is written between the reads, every text is that of an approved revision. -/
theorem approved_summaries_quiet (db : RlmDb) {ws : List NodeWrite} {bufferId : Int}
    {project : String} (T : Int) (h : ∀ w ∈ ws, FiledUnder bufferId project w) :
    ShowsApproved (readsOf db ws [] []) bufferId project T := by
  refine showsApproved_of_active (nodesAfter_unstamped db ws) fun _ x hx hserved y hy hlive => ?_
  have hx : x ∈ (nodesAfter db ws).rows := hx.elim id id
  have hI := nodesAfter_unstamped db ws
  have happroved := servedBy_approved hserved
  simp only [RlmNode.servedBy, Bool.and_eq_true, beq_iff_eq] at hserved
  have hproject := nodesAfter_filed db h x hx hserved.1.1.1
  simp only [RlmNode.isLive, Bool.and_eq_true, beq_iff_eq] at hlive
  have hid : x.1 = y.1 := by
    refine hI.versioned.liveUnique x hx y hy hserved.1.1.2 hlive.2 ?_
    simp only [nodeColumns, hproject, hlive.1.1.1, hlive.1.1.2, hlive.1.2]
  have hrow : y.2 = x.2 := Table.eq_of_mem hy (hid ▸ hx : (y.1, x.2) ∈ _)
  rw [hrow]
  exact happroved

/-! ## A completion between the reads -/

def claimedSample (generation : Int) : RlmJob where
  jobKey := s!"L1:p:a.rs#{generation}"
  bufferId := some 1
  project := "p"
  level := 1
  subject := "a.rs"
  payload := ""
  generation := generation
  generationGroupId := some 1
  status := .claimed
  priority := 0
  claimedBy := some "v"
  claimedAt := some 0
  leaseExpiresAt := some 1000
  attempts := 0
  lastError := none
  createdAt := 0
  updatedAt := 0

/-- Two jobs of one subject that a volunteer holds. -/
def claimedPair : RlmDb :=
  { RlmDb.empty with
    rlmJobs := (Table.empty.insert (claimedSample 0)).insert (claimedSample 1) }

def submittedSample (text : String) : NewRlmNode where
  bufferId := some 1
  project := "p"
  level := 1
  subject := "a.rs"
  summaryText := text
  sourceHashes := []
  model := none
  volunteerUsername := some "v"
  createdBy := some "v"
  templateVersion := none
  tokenCount := 0

def firstApproved : List NodeWrite :=
  [.review "n1" true "root" 20, .complete .rowid 1 "v" 0 (submittedSample "first") "n1" 10 10]

def secondCompleted : List NodeWrite :=
  [.complete .rowid 2 "v" 1 (submittedSample "draft") "n2" 30 30]

/-- An index that knows the first row. -/
def oneHit : SummaryEnv Unit :=
  ⟨fun _ _ => .ok [1], .rowid, fun _ => none, false, fun _ _ _ => .ok []⟩

/-- The first revision is approved and found. A second one is completed before the rewrite: the
search shows it, though it is pending. -/
theorem approved_summaries_pending :
    ¬ ShowsApproved (readsOf claimedPair firstApproved [] secondCompleted) 1 "p" 5 ∧
    ((summarySearchAcross oneHit (readsOf claimedPair firstApproved [] secondCompleted) ∅ 1 "p"
      "first" 1 5).map (List.map SummaryCandidate.text)).toOption = some ["draft"] := by
  refine ⟨fun h => ?_, by decide +kernel⟩
  have hactive := active_of_showsApproved (nodesAfter_unstamped claimedPair _) (by decide) h
  have hfound : ∃ x ∈ (nodesAfter claimedPair firstApproved).rows, x.2.servedBy 1 = true ∧
      x.2.level = 1 ∧ x.2.subject = "a.rs" := by
    decide +kernel
  obtain ⟨x, hx, hserved, hlevel, hsubject⟩ := hfound
  have hdraft : ∃ y ∈ (nodesAfter claimedPair (secondCompleted ++ firstApproved)).rows,
      y.2.isLive "p" 1 "a.rs" = true ∧ y.2.reviewStatus ≠ .approved := by
    decide +kernel
  obtain ⟨y, hy, hlive, hpending⟩ := hdraft
  exact hpending (hactive x (.inl hx) hserved y hy (by rw [hlevel, hsubject]; exact hlive))

end Arags
