import Arags.Rlm.Cliques
import Arags.Rlm.Publication

/-!
# Arags.Rlm.ByzantineBound

The bound `2f + 1` of `decide_rlm_quorum` is taken from the configured `n`, the agreeing set from
however many candidates are pending.

* `MeetsTest`, `ByzantineSafe` — a set that could be accepted, and what an accepted set should be
  among `m` candidates: at least `2f + 1` of them for `f = (m - 1) / 3`, and the only one.
* `BoundFits`       — for which `n` and `m` the sizes the search can return are large enough.
* `byzantine_bound` — these are the `n` and `m` at which every decision is safe.
-/

namespace Arags

open Sql

/-! ## The bound -/

/-- The least number of candidates a decision accepts. -/
def acceptanceSize (n : Nat) : Nat := if max n 1 = 1 then 1 else max 2 (minClique (max n 1))

/-- A set of candidates that passes the acceptance test. -/
structure MeetsTest (cfg : QuorumConfig) (sims : List (List Rat)) (set : List Nat) : Prop where
  increasing : set.Pairwise (· < ·)
  inRange : ∀ i ∈ set, i < sims.length
  agree : IsClique sims cfg.quorumSimThreshold set
  size : acceptanceSize cfg.n ≤ set.length

/-- If the pending candidates of a subject are accepted, they are `2f + 1`, and no other set of
candidates passes the test. The model embeds one vector for each text. -/
def ByzantineSafe (cfg : ServerConfig) (env : DecisionEnv) (s : RlmStore) (project : String)
    (level : Int) (subject : String) : Prop :=
  let pending := listPending env.submissionScan s.submissions project "rlm_node"
    (rlmJobKey project level subject)
  ∀ vectors text acceptedIds rejectedIds, pending ≠ [] →
    env.embedder.embedBatch (pending.map fun x => x.2.candidateText) = some vectors →
    vectors.length = pending.length →
    (decideRlmQuorum cfg env s project level subject).2 =
      .ok (.accepted text acceptedIds rejectedIds) →
    2 * ((pending.length - 1) / 3) + 1 ≤ acceptedIds.length ∧
      ∀ set, MeetsTest cfg.quorum (similarityMatrix env.embedder vectors) set →
        ∃ i ∈ set, ∃ x, pending[i]? = some x ∧ x.1 ∈ acceptedIds

/-- The sizes the search can return: some of `m % 32` bits, once for each round of 32. -/
def SearchedSize (m size : Nat) : Prop := ∃ k, 1 ≤ k ∧ k ≤ m % 32 ∧ size = k * (m / 32 + 1)

def BoundFits (n m : Nat) : Prop :=
  max n 1 ≤ m → if max n 1 = 1 then m = 1 else
    ∀ size, SearchedSize m size → acceptanceSize n ≤ size →
      2 * ((m - 1) / 3) + 1 ≤ size ∧ m < size + acceptanceSize n

/-! ## What is accepted -/

def idsOf (set : List Nat) (pending : List (Int × Submission)) : List Int :=
  (pending.zipIdx.filter fun x => set.contains x.2 == true).map fun x => x.1.1

theorem mem_idsOf {set : List Nat} {pending : List (Int × Submission)} {id : Int} :
    id ∈ idsOf set pending ↔ ∃ i ∈ set, ∃ x, pending[i]? = some x ∧ x.1 = id := by
  unfold idsOf
  simp only [List.mem_map, List.mem_filter, Prod.exists, List.mk_mem_zipIdx_iff_getElem?,
    beq_true, List.contains_iff_mem]
  constructor
  · rintro ⟨i, sub, j, ⟨hget, hj⟩, rfl⟩
    exact ⟨j, hj, i, sub, hget, rfl⟩
  · rintro ⟨j, hj, i, sub, hget, rfl⟩
    exact ⟨i, sub, j, ⟨hget, hj⟩, rfl⟩

theorem length_idsOf {set : List Nat} {pending : List (Int × Submission)} (hn : set.Nodup)
    (hr : ∀ i ∈ set, i < pending.length) : (idsOf set pending).length = set.length := by
  have hsnd : (pending.zipIdx.filter fun x => set.contains x.2 == true).map Prod.snd =
      (List.range' 0 pending.length).filter fun i => set.contains i == true := by
    rw [← List.zipIdx_map_snd 0 pending, List.filter_map]
    rfl
  have hlen : (idsOf set pending).length =
      ((List.range' 0 pending.length).filter fun i => set.contains i == true).length := by
    rw [← hsnd]
    simp [idsOf]
  rw [hlen]
  refine List.Perm.length_eq ((List.perm_ext_iff_of_nodup ((List.nodup_range' ..).filter _) hn).mpr
    fun i => ?_)
  simp only [List.mem_filter, List.mem_range'_1, beq_true, List.contains_iff_mem]
  constructor
  · exact fun h => h.2
  · exact fun h => ⟨⟨Nat.zero_le _, by have := hr i h; omega⟩, h⟩

/-- A first node can be published. -/
theorem publish_first (scan : ScanOrder RlmNode) (project : String) (level : Int)
    (subject text volunteer nodeId : String) (now : Int) :
    ∃ t id, publishRlmNodeForSubject scan Table.empty project level subject text []
      (some volunteer) none none "quorum" nodeId now = .ok (t, id, nodeId) := by
  have hnone : (scan.order []).head? = none := by
    rw [List.perm_nil.mp (scan.perm [])]
    rfl
  unfold publishRlmNodeForSubject upsertNodeStmt
  dsimp only [Table.select, Table.empty, List.filter_nil]
  rw [hnone]
  exact ⟨_, _, rfl⟩

theorem choosePublished_mem (e : Embedder) (cfg : QuorumConfig) {agreeing : List Nat}
    (h : agreeing ≠ []) (pending : List (Int × Submission)) (vectors : List Embedding)
    (ledger : List VolunteerTrust) :
    choosePublished e cfg agreeing pending vectors ledger ∈ agreeing := by
  have hfold : ∀ (l : List Nat) (score : Nat → Rat) (best : Nat × Option Rat),
      (l.foldl (fun (best : Nat × Option Rat) i =>
        if best.2.all fun b => decide (b < score i) then (i, some (score i)) else best) best).1 ∈
          best.1 :: l := by
    intro l score
    induction l with
    | nil => intro best; exact List.mem_cons_self
    | cons i l ih =>
      intro best
      rw [List.foldl_cons]
      split
      · exact List.mem_cons_of_mem _ (ih _)
      · rcases List.mem_cons.mp (ih best) with he | hm
        · exact List.mem_cons.mpr (.inl he)
        · exact List.mem_cons_of_mem _ (List.mem_cons_of_mem _ hm)
  unfold choosePublished
  dsimp only
  rcases List.mem_cons.mp (hfold agreeing _ (agreeing.headD 0, none)) with he | hm
  · rw [he]
    cases agreeing with
    | nil => exact absurd rfl h
    | cons i l => exact List.mem_cons_self
  · exact hm

section Accepted

variable {cfg : ServerConfig} {env : DecisionEnv} {s : RlmStore} {project : String} {level : Int}
  {subject text : String} {acceptedIds rejectedIds : List Int} {vectors : List Embedding}

/-- A decision that accepts its pending candidates has an agreeing set of at least `minClique`. -/
theorem decideRlmQuorum_accepts {pending : List (Int × Submission)}
    (hpending : listPending env.submissionScan s.submissions project "rlm_node"
      (rlmJobKey project level subject) = pending) (hne : pending ≠ [])
    (hembed : env.embedder.embedBatch (pending.map fun x => x.2.candidateText) = some vectors)
    (h : (decideRlmQuorum cfg env s project level subject).2 =
      .ok (.accepted text acceptedIds rejectedIds)) :
    max cfg.quorum.n 1 ≤ pending.length ∧
      agreeingSet env.embedder cfg.quorum vectors ≠ [] ∧
      minClique (max cfg.quorum.n 1) ≤
        (agreeingSet env.embedder cfg.quorum vectors).length ∧
      acceptedIds = idsOf (agreeingSet env.embedder cfg.quorum vectors) pending := by
  unfold decideRlmQuorum at h
  dsimp only at h
  rw [hpending, if_neg (by simpa using hne)] at h
  split at h
  · cases h
  rename_i hn
  rw [hembed] at h
  dsimp only at h
  unfold decideGathered at h
  dsimp only at h
  split at h
  · cases h
  rename_i hagree
  split at h
  · cases h
  split at h
  · cases h
  simp only [Bool.or_eq_true, List.isEmpty_iff, decide_eq_true_eq, not_or, Nat.not_lt] at hagree
  simp only [Except.ok.injEq, QuorumDecision.accepted.injEq] at h
  exact ⟨Nat.not_lt.mp hn, hagree.1, hagree.2, h.2.1.symm⟩

/-- A large enough agreeing set is accepted. -/
theorem decideRlmQuorum_of_agreeing {pending : List (Int × Submission)}
    (hpending : listPending env.submissionScan s.submissions project "rlm_node"
      (rlmJobKey project level subject) = pending) (hn : max cfg.quorum.n 1 ≤ pending.length)
    (hembed : env.embedder.embedBatch (pending.map fun x => x.2.candidateText) = some vectors)
    (hne : agreeingSet env.embedder cfg.quorum vectors ≠ [])
    (hmin : minClique (max cfg.quorum.n 1) ≤
      (agreeingSet env.embedder cfg.quorum vectors).length)
    (hrange : ∀ i ∈ agreeingSet env.embedder cfg.quorum vectors, i < pending.length)
    (hnodes : s.db.rlmNodes = Table.empty) :
    ∃ text rejectedIds, (decideRlmQuorum cfg env s project level subject).2 =
      .ok (.accepted text (idsOf (agreeingSet env.embedder cfg.quorum vectors) pending)
        rejectedIds) := by
  have hpos : 0 < pending.length := by omega
  have hwinner := hrange _ (choosePublished_mem env.embedder cfg.quorum hne pending
    vectors s.db.volunteerTrust)
  have hget := List.getElem?_eq_getElem hwinner
  obtain ⟨nodes, id, hpub⟩ := publish_first env.nodeScan project level subject
    (pending[choosePublished env.embedder cfg.quorum (agreeingSet env.embedder cfg.quorum vectors)
      pending vectors s.db.volunteerTrust].2.candidateText)
    (pending[choosePublished env.embedder cfg.quorum (agreeingSet env.embedder cfg.quorum vectors)
      pending vectors s.db.volunteerTrust].2.candidateBy) env.freshNodeId env.now
  have hempty : pending.isEmpty = false := by
    rw [List.isEmpty_eq_false_iff]
    exact List.ne_nil_of_length_pos hpos
  have hagree : ((agreeingSet env.embedder cfg.quorum vectors).isEmpty ||
      decide ((agreeingSet env.embedder cfg.quorum vectors).length <
        minClique (max cfg.quorum.n 1))) = false := by
    rw [Bool.or_eq_false_iff, List.isEmpty_eq_false_iff, decide_eq_false_iff_not]
    exact ⟨hne, Nat.not_lt.mpr hmin⟩
  unfold decideRlmQuorum
  dsimp only
  rw [hpending, hempty, if_neg Bool.false_ne_true, if_neg (Nat.not_lt.mpr hn), hembed]
  dsimp only
  unfold decideGathered
  dsimp only
  rw [hagree, if_neg Bool.false_ne_true, hget]
  dsimp only
  unfold publishConsensus
  rw [hnodes, hpub]
  exact ⟨_, _, rfl⟩

theorem length_similarityMatrix (e : Embedder) (vectors : List Embedding) :
    (similarityMatrix e vectors).length = vectors.length := List.length_map _

/-- Two disjoint sets of candidates are no more than all. -/
theorem length_add_le {a b : List Nat} {m : Nat} (ha : a.Nodup) (hb : b.Nodup)
    (ham : ∀ i ∈ a, i < m) (hbm : ∀ i ∈ b, i < m) (hd : ∀ i ∈ a, i ∉ b) :
    a.length + b.length ≤ m := by
  have hsub : (a ++ b).Subperm (List.range m) := by
    refine List.subperm_of_subset (List.nodup_append.mpr ⟨ha, hb, ?_⟩) fun i hi => ?_
    · rintro i hi j hj rfl
      exact hd i hi hj
    · rw [List.mem_range]
      exact (List.mem_append.mp hi).elim (ham i) (hbm i)
  have hlen := hsub.length_le
  rwa [List.length_append, List.length_range] at hlen

/-- The set that is found has one of the sizes the search can return. -/
theorem searchedSize_found {sims : List (List Rat)} {threshold : Rat} {mask : Nat}
    (ht : Tried sims.length mask) (ha : Agrees sims threshold mask) :
    SearchedSize sims.length (membersOf sims.length mask).length := by
  have hlen := length_membersOf ht.2
  refine ⟨(List.range (sims.length % 32)).countP fun i => mask.testBit i, ?_, ?_, hlen⟩
  · rw [Nat.one_le_iff_ne_zero]
    intro hzero
    have htwo := ha.two
    rw [hlen, hzero] at htwo
    omega
  · exact List.countP_le_length.trans (List.length_range).le

theorem safe_of_fits {n m : Nat} (hfits : BoundFits n m) (hn : cfg.quorum.n = n)
    (hm : (listPending env.submissionScan s.submissions project "rlm_node"
      (rlmJobKey project level subject)).length = m) :
    ByzantineSafe cfg env s project level subject := by
  unfold ByzantineSafe
  dsimp only
  generalize hp : listPending env.submissionScan s.submissions project "rlm_node"
    (rlmJobKey project level subject) = pending at hm ⊢
  intro vectors text acceptedIds rejectedIds hne hembed hlen h
  obtain ⟨hmn, hsome, hmin, rfl⟩ := decideRlmQuorum_accepts hp hne hembed h
  have hmn' : max n 1 ≤ m := hn ▸ hm ▸ hmn
  have hpending : pending.length = m := hm
  have hsims : (similarityMatrix env.embedder vectors).length = m :=
    (length_similarityMatrix _ _).trans (hlen.trans hpending)
  have hbound := hfits hmn'
  -- every candidate of the agreeing set is accepted
  have hin : ∀ {i}, i < m → i ∈ agreeingSet env.embedder cfg.quorum vectors →
      ∃ x, pending[i]? = some x ∧ x.1 ∈ idsOf (agreeingSet env.embedder cfg.quorum vectors)
        pending := by
    intro i hi hmem
    have hget := List.getElem?_eq_getElem (hpending.symm ▸ hi : i < pending.length)
    exact ⟨_, hget, mem_idsOf.mpr ⟨i, hmem, _, hget, rfl⟩⟩
  by_cases hone : max n 1 = 1
  · rw [if_pos hone] at hbound
    subst hbound
    have hset : agreeingSet env.embedder cfg.quorum vectors = [0] := by
      unfold agreeingSet
      rw [if_pos (hn.symm ▸ hone)]
    rw [hset] at hin ⊢
    refine ⟨?_, fun set hset => ?_⟩
    · rw [length_idsOf (by simp) (by simp [hpending]), hpending]
      decide
    · have hsize := hset.size
      unfold acceptanceSize at hsize
      rw [if_pos (hn.symm ▸ hone)] at hsize
      obtain ⟨i, hi⟩ := List.exists_mem_of_length_pos hsize
      have hlt := hset.inRange i hi
      rw [hsims, Nat.lt_one_iff] at hlt
      subst hlt
      obtain ⟨x, hx, hacc⟩ := hin Nat.one_pos List.mem_cons_self
      exact ⟨0, hi, x, hx, hacc⟩
  · rw [if_neg hone] at hbound
    have hset : agreeingSet env.embedder cfg.quorum vectors =
        bestAgreeingClique (similarityMatrix env.embedder vectors)
          cfg.quorum.quorumSimThreshold := by
      unfold agreeingSet
      rw [if_neg (hn.symm ▸ hone)]
    rw [hset] at hsome hmin hin ⊢
    obtain ⟨hfound, -⟩ := bestAgreeingClique_spec cfg.quorum.quorumSimThreshold
      (hsims.symm ▸ (by omega) : 2 ≤ (similarityMatrix env.embedder vectors).length)
    rcases hfound with hnone | ⟨mask, ht, ha, hbest⟩
    · exact absurd hnone hsome
    rw [hbest] at hmin hin ⊢
    have hsize : acceptanceSize n ≤ (membersOf m mask).length := by
      have htwo := ha.two
      rw [hsims] at htwo hmin
      unfold acceptanceSize
      rw [if_neg hone]
      rw [hn] at hmin
      omega
    have hsearched := searchedSize_found ht ha
    rw [hsims] at hsearched hin ⊢
    obtain ⟨hf, hunique⟩ := hbound _ hsearched hsize
    have hinc := membersOf_increasing m mask
    have hrange : ∀ i ∈ membersOf m mask, i < m := fun i hi => (mem_membersOf.mp hi).1
    refine ⟨?_, fun set hset => ?_⟩
    · rw [length_idsOf (hinc.imp Nat.ne_of_lt) (hpending.symm ▸ hrange), hpending]
      exact hf
    · by_contra hdisjoint
      have hsum := length_add_le (hinc.imp Nat.ne_of_lt) (hset.increasing.imp Nat.ne_of_lt) hrange
        (hsims ▸ hset.inRange) fun i hi hmem => by
          obtain ⟨x, hx, hacc⟩ := hin (hrange i hi) hi
          exact hdisjoint ⟨i, hmem, x, hx, hacc⟩
      have hother := hset.size
      rw [hn] at hother
      omega

end Accepted

/-! ## Candidates of some classes -/

section Classes

def classText (i : Nat) : String := String.ofList (List.replicate i 'a')

def classRow (i : Nat) : Submission where
  project := "p"
  subjectType := "rlm_node"
  subjectKey := rlmJobKey "p" 1 "a"
  candidateText := classText i
  candidateBy := "v"
  similarity := none
  status := .candidate
  createdAt := 0
  decidedAt := none
  decidedBy := none

def classPending (m : Nat) : List (Int × Submission) :=
  (List.range m).map fun i : Nat => ((i : Int) + 1, classRow i)

def classStore (m : Nat) : RlmStore where
  db := RlmDb.empty
  submissions := {
    rows := classPending m
    nodup := by
      unfold classPending
      rw [List.map_map]
      refine List.nodup_range.map fun i j h => ?_
      dsimp only [Function.comp_apply] at h
      omega }

/-- Candidates agree when `f` puts them into one class. -/
def classEmbedder (f : Nat → Nat) : Embedder where
  embedBatch := fun texts => some (texts.map fun t => [(t.length : Rat)])
  cosineSimilarity := fun v w =>
    if f (v.headD 0).num.toNat = f (w.headD 0).num.toNat then 1 else 0

def classEnv (f : Nat → Nat) : DecisionEnv where
  submissionScan := .rowid
  nodeScan := .rowid
  jobScan := .rowid
  codec := themeCodec
  embedder := classEmbedder f
  freshNodeId := "n1"
  now := 0
  nowSecs := 0

def classConfig (n : Nat) : ServerConfig where
  quorum := { n := n, quorumSimThreshold := 1, fusionStrategy := .consensus, strikesLimit := 3 }
  rlmEnabled := false
  l2Tolerance := 0
  l3Tolerance := 0

def classVectors (m : Nat) : List Embedding := (List.range m).map fun i : Nat => [(i : Rat)]

variable {f : Nat → Nat} {n m k : Nat}

theorem classPending_eq : listPending .rowid (classStore m).submissions "p" "rlm_node"
    (rlmJobKey "p" 1 "a") = classPending m := by
  have hall : (classStore m).submissions.select (fun _ r => r.project == "p" &&
      r.subjectType == "rlm_node" && r.subjectKey == rlmJobKey "p" 1 "a" &&
      r.status == .candidate) = classPending m := by
    refine List.filter_eq_self.mpr fun x hx => ?_
    obtain ⟨i, -, rfl⟩ := List.mem_map.mp hx
    simp [classRow]
  have hsorted : (classPending m).Pairwise fun x y => x.2.createdAt ≤ y.2.createdAt := by
    unfold classPending
    exact List.pairwise_map.mpr (List.pairwise_of_forall fun _ _ => Int.le_refl _)
  unfold listPending listByStatus
  rw [hall]
  exact hsorted.insertionSort_eq

theorem length_classPending : (classPending m).length = m := by
  unfold classPending
  rw [List.length_map, List.length_range]

theorem classVectors_eq (f : Nat → Nat) : (classEmbedder f).embedBatch
    ((classPending m).map fun x => x.2.candidateText) = some (classVectors m) := by
  unfold classEmbedder classPending classVectors
  dsimp only
  rw [List.map_map, List.map_map]
  refine congrArg some (List.map_congr_left fun i _ => ?_)
  simp [classRow, classText]

theorem class_sim {i j : Nat} (hi : i < m) (hj : j < m) :
    ((similarityMatrix (classEmbedder f) (classVectors m)).getD i []).getD j 0 =
      if f i = f j then 1 else 0 := by
  by_cases h : f i = f j <;> simp [similarityMatrix, classVectors, classEmbedder, hi, hj, h]

theorem isClique_class {set : List Nat} (h : ∀ i ∈ set, i < m) :
    IsClique (similarityMatrix (classEmbedder f) (classVectors m)) 1 set ↔
      set.Pairwise fun i j => f i = f j := by
  refine List.Pairwise.iff_of_mem fun {i j} hi hj => ?_
  rw [class_sim (h i hi) (h j hj)]
  split
  · rename_i he
    exact iff_of_true (le_refl 1) he
  · rename_i he
    exact iff_of_false (by decide) he

theorem length_classSims : (similarityMatrix (classEmbedder f) (classVectors m)).length = m := by
  rw [length_similarityMatrix]
  unfold classVectors
  rw [List.length_map, List.length_range]

/-- The agreeing set of the classes is accepted when it is large enough. -/
theorem class_accepted (hmn : max n 1 ≤ m)
    (hne : agreeingSet (classEmbedder f) (classConfig n).quorum (classVectors m) ≠ [])
    (hmin : minClique (max n 1) ≤
      (agreeingSet (classEmbedder f) (classConfig n).quorum (classVectors m)).length)
    (hrange : ∀ i ∈ agreeingSet (classEmbedder f) (classConfig n).quorum (classVectors m), i < m) :
    ∃ text rejectedIds, (decideRlmQuorum (classConfig n) (classEnv f) (classStore m) "p" 1
      "a").2 = .ok (.accepted text (idsOf (agreeingSet (classEmbedder f) (classConfig n).quorum
        (classVectors m)) (classPending m)) rejectedIds) :=
  decideRlmQuorum_of_agreeing classPending_eq
    (hmn.trans length_classPending.ge) (classVectors_eq f) hne hmin
    (length_classPending (m := m) |>.symm ▸ hrange) rfl

/-- The residues below `k` modulo 32. -/
theorem mem_firstBits {i : Nat} : i ∈ membersOf m (2 ^ k - 1) ↔ i < m ∧ i % 32 < k := by
  rw [mem_membersOf, Nat.testBit_two_pow_sub_one, decide_eq_true_eq]

theorem length_firstBits (hk : k ≤ m % 32) :
    (membersOf m (2 ^ k - 1)).length = k * (m / 32 + 1) := by
  have hpos : 0 < 2 ^ k := Nat.two_pow_pos k
  have hlt : 2 ^ k - 1 < 2 ^ (m % 32) :=
    Nat.lt_of_lt_of_le (by omega) (Nat.pow_le_pow_right (by decide) hk)
  have hself : (List.range k).countP (fun i => (2 ^ k - 1).testBit i) = k := by
    rw [List.countP_eq_length.mpr, List.length_range]
    intro i hi
    rw [Nat.testBit_two_pow_sub_one, decide_eq_true_eq]
    exact List.mem_range.mp hi
  rw [length_membersOf hlt, countP_testBit (by omega : 2 ^ k - 1 < 2 ^ k) hk, hself]

/-- When the candidates below `k` are in one class, some class is accepted that is as large. -/
theorem class_decision (hone : max n 1 ≠ 1) (hmn : max n 1 ≤ m) (hk1 : 1 ≤ k) (hk : k ≤ m % 32)
    (hf : ∀ i j, i % 32 < k → j % 32 < k → f i = f j)
    (hsize : acceptanceSize n ≤ k * (m / 32 + 1)) :
    ∃ set text rejectedIds,
      (decideRlmQuorum (classConfig n) (classEnv f) (classStore m) "p" 1 "a").2 =
        .ok (.accepted text (idsOf set (classPending m)) rejectedIds) ∧
      k * (m / 32 + 1) ≤ set.length ∧ set.Pairwise (· < ·) ∧ (∀ i ∈ set, i < m) ∧
      set.Pairwise fun i j => f i = f j := by
  have hsims : (similarityMatrix (classEmbedder f) (classVectors m)).length = m := length_classSims
  have hset : agreeingSet (classEmbedder f) (classConfig n).quorum (classVectors m) =
      bestAgreeingClique (similarityMatrix (classEmbedder f) (classVectors m)) 1 := by
    unfold agreeingSet
    exact if_neg hone
  have hlarge : max 2 (minClique (max n 1)) ≤ k * (m / 32 + 1) := by
    unfold acceptanceSize at hsize
    rwa [if_neg hone] at hsize
  obtain ⟨hfound, hmax⟩ := bestAgreeingClique_spec 1
    (hsims.symm ▸ (by omega) :
      2 ≤ (similarityMatrix (classEmbedder f) (classVectors m)).length)
  have htwo : 2 ≤ 2 ^ k := Nat.le_self_pow (by omega) 2
  have htried : Tried m (2 ^ k - 1) := by
    have hle : 2 ^ k ≤ 2 ^ (m % 32) := Nat.pow_le_pow_right (by decide) hk
    unfold Tried
    omega
  have hagrees : Agrees (similarityMatrix (classEmbedder f) (classVectors m)) 1 (2 ^ k - 1) := by
    refine ⟨?_, ?_⟩
    · rw [hsims, length_firstBits hk]
      omega
    · rw [hsims]
      refine (isClique_class fun i hi => (mem_firstBits.mp hi).1).mpr ?_
      exact List.pairwise_of_forall_mem_list fun i hi j hj =>
        hf i j (mem_firstBits.mp hi).2 (mem_firstBits.mp hj).2
  have hle := hmax (2 ^ k - 1) (hsims.symm ▸ htried) hagrees
  rw [hsims, length_firstBits hk] at hle
  rcases hfound with hnone | ⟨mask, ht, ha, hbest⟩
  · rw [hnone, List.length_nil] at hle
    omega
  rw [hbest] at hle hset
  have hrange : ∀ i ∈ membersOf m mask, i < m := fun i hi => (mem_membersOf.mp hi).1
  have hclique := ha.clique
  rw [hsims] at hle hset hclique
  have hmin : minClique (max n 1) ≤ (membersOf m mask).length := by omega
  have hne : membersOf m mask ≠ [] := List.ne_nil_of_length_pos (by omega)
  obtain ⟨text, rejectedIds, hacc⟩ := class_accepted (f := f) hmn (hset.symm ▸ hne)
    (hset.symm ▸ hmin) (hset.symm ▸ hrange)
  rw [hset] at hacc
  exact ⟨_, text, rejectedIds, hacc, hle, membersOf_increasing m mask, hrange,
    (isClique_class hrange).mp hclique⟩

end Classes

/-! ## The result -/

section Result

variable {n m : Nat}

/-- Candidate `i` of the classes is accepted when it is in the set. -/
theorem class_mem_iff {set : List Nat} {i : Nat} (hi : i < m) :
    (∃ x, (classPending m)[i]? = some x ∧ x.1 ∈ idsOf set (classPending m)) ↔ i ∈ set := by
  have hget : ∀ {j}, j < m → (classPending m)[j]? = some ((j : Int) + 1, classRow j) := by
    intro j hj
    simp [classPending, hj]
  constructor
  · rintro ⟨x, hx, hmem⟩
    obtain ⟨j, hj, y, hy, he⟩ := mem_idsOf.mp hmem
    have hjm : j < m := by
      have := (List.getElem?_eq_some_iff.mp hy).1
      rwa [length_classPending] at this
    rw [hget hi, Option.some.injEq] at hx
    rw [hget hjm, Option.some.injEq] at hy
    rw [← hx, ← hy] at he
    dsimp only at he
    have hij : j = i := by omega
    exact hij ▸ hj
  · intro hmem
    exact ⟨_, hget hi, mem_idsOf.mpr ⟨i, hmem, _, hget hi, rfl⟩⟩

/-- A safe decision of the classes. -/
theorem class_safe {f : Nat → Nat} {set : List Nat} {text : String} {rejectedIds : List Int}
    (hm : 1 ≤ m) (hsafe : ByzantineSafe (classConfig n) (classEnv f) (classStore m) "p" 1 "a")
    (h : (decideRlmQuorum (classConfig n) (classEnv f) (classStore m) "p" 1 "a").2 =
      .ok (.accepted text (idsOf set (classPending m)) rejectedIds))
    (hn : set.Nodup) (hr : ∀ i ∈ set, i < m) :
    2 * ((m - 1) / 3) + 1 ≤ set.length ∧
      ∀ other, MeetsTest (classConfig n).quorum
        (similarityMatrix (classEmbedder f) (classVectors m)) other → ∃ i ∈ other, i ∈ set := by
  have hlen : (classPending m).length = m := length_classPending
  have hpending : listPending (classEnv f).submissionScan (classStore m).submissions "p" "rlm_node"
      (rlmJobKey "p" 1 "a") = classPending m := classPending_eq
  unfold ByzantineSafe at hsafe
  dsimp only at hsafe
  rw [hpending] at hsafe
  have hvectors : (classVectors m).length = (classPending m).length := by
    rw [hlen, ← length_similarityMatrix (classEmbedder f), length_classSims]
  obtain ⟨hbound, hunique⟩ := hsafe (classVectors m) text _ rejectedIds
    (List.ne_nil_of_length_pos (by omega)) (classVectors_eq f) hvectors h
  rw [hlen, length_idsOf hn (hlen.symm ▸ hr)] at hbound
  refine ⟨hbound, fun other hother => ?_⟩
  obtain ⟨i, hi, hx⟩ := hunique other hother
  have hlt := hother.inRange i hi
  rw [length_similarityMatrix, hvectors, hlen] at hlt
  exact ⟨i, hi, (class_mem_iff hlt).mp hx⟩

theorem meetsTest_class {f : Nat → Nat} {set : List Nat} (hinc : set.Pairwise (· < ·))
    (hr : ∀ i ∈ set, i < m) (hf : set.Pairwise fun i j => f i = f j)
    (hsize : acceptanceSize n ≤ set.length) :
    MeetsTest (classConfig n).quorum (similarityMatrix (classEmbedder f) (classVectors m)) set where
  increasing := hinc
  inRange i hi := length_classSims.symm ▸ hr i hi
  agree := (isClique_class hr).mpr hf
  size := hsize

/-- One volunteer decides alone: the other candidate would have been accepted as well. -/
theorem single_of_safe (hone : max n 1 = 1) (hmn : max n 1 ≤ m)
    (hsafe : ByzantineSafe (classConfig n) (classEnv id) (classStore m) "p" 1 "a") : m = 1 := by
  by_contra hm
  have hset : agreeingSet (classEmbedder id) (classConfig n).quorum (classVectors m) = [0] := by
    unfold agreeingSet
    exact if_pos hone
  have hmin : minClique (max n 1) ≤ [0].length := by
    rw [hone]
    exact Nat.le_refl 1
  obtain ⟨text, rejectedIds, hacc⟩ := class_accepted (f := id) hmn
    (hset.symm ▸ List.cons_ne_nil _ _) (hset.symm ▸ hmin) (hset.symm ▸ by simp; omega)
  rw [hset] at hacc
  obtain ⟨-, hunique⟩ := class_safe (by omega) hsafe hacc (by simp) (by simp; omega)
  have hsize : acceptanceSize n ≤ [1].length := by
    unfold acceptanceSize
    rw [if_pos hone]
    rfl
  obtain ⟨i, hi, hmem⟩ := hunique [1] (meetsTest_class (List.pairwise_singleton _ _)
    (by simp; omega) (List.pairwise_singleton _ _) hsize)
  simp only [List.mem_singleton] at hi hmem
  omega

theorem class_const {f : Nat → Nat} {set : List Nat} (h : set.Pairwise fun i j => f i = f j) :
    ∀ i ∈ set, ∀ j ∈ set, f i = f j := by
  have hflip : set.Pairwise (flip fun i j => f i = f j) := h.imp Eq.symm
  intro i hi j hj
  exact List.Pairwise.forall_of_forall_of_flip (R := fun i j => f i = f j) (fun _ _ => rfl) h hflip
    hi hj

/-- One class on the lowest bits, the other candidates apart: the class is accepted. -/
theorem class_is_bits {set : List Nat} {k : Nat} (hk : k ≤ m % 32) (hn : set.Nodup)
    (hr : ∀ i ∈ set, i < m) (htwo : 2 ≤ set.length)
    (hclass : set.Pairwise fun i j =>
      (if i % 32 < k then 0 else i + 1) = if j % 32 < k then 0 else j + 1) :
    set.length ≤ k * (m / 32 + 1) := by
  have hconst := class_const (f := fun i => if i % 32 < k then 0 else i + 1) hclass
  rw [← length_firstBits hk]
  refine (List.subperm_of_subset hn fun i hi => mem_firstBits.mpr ⟨hr i hi, ?_⟩).length_le
  by_contra hout
  -- a candidate that is apart is alone
  have halone : ∀ j ∈ set, j ∈ [i] := by
    intro j hj
    have he := hconst i hi j hj
    rw [if_neg hout] at he
    split at he
    · omega
    · rw [List.mem_singleton]
      omega
  have hle := (List.subperm_of_subset hn halone).length_le
  rw [List.length_singleton] at hle
  omega

/-- Two classes, the lowest bits and the rest: the one that is not accepted is too small. -/
theorem other_class_small {set : List Nat} {k : Nat} (hk : k ≤ m % 32)
    (hsize : acceptanceSize n ≤ k * (m / 32 + 1))
    (hclass : set.Pairwise fun i j =>
      (if i % 32 < k then 0 else 1) = if j % 32 < k then 0 else 1)
    (hunique : ∀ other, MeetsTest (classConfig n).quorum (similarityMatrix
      (classEmbedder fun i => if i % 32 < k then 0 else 1) (classVectors m)) other →
        ∃ i ∈ other, i ∈ set) : m < k * (m / 32 + 1) + acceptanceSize n := by
  have hconst := class_const (f := fun i => if i % 32 < k then 0 else 1) hclass
  have hbits : ∀ i ∈ membersOf m (2 ^ k - 1), i % 32 < k := fun i hi => (mem_firstBits.mp hi).2
  have hsplit := List.length_eq_length_filter_add (l := List.range m)
    fun i => (2 ^ k - 1).testBit (i % 32)
  have hlow : ((List.range m).filter fun i => (2 ^ k - 1).testBit (i % 32)).length =
      k * (m / 32 + 1) := length_firstBits hk
  rw [List.length_range, hlow] at hsplit
  by_contra hm
  -- the accepted set meets the lowest bits, and so lies in them
  obtain ⟨i, hi, his⟩ := hunique (membersOf m (2 ^ k - 1)) (meetsTest_class
    (membersOf_increasing m _) (fun i hi => (mem_firstBits.mp hi).1)
    (List.pairwise_of_forall_mem_list fun i hi j hj => by
      rw [if_pos (hbits i hi), if_pos (hbits j hj)]) (by rw [length_firstBits hk]; exact hsize))
  have hrest : ∀ j ∈ (List.range m).filter fun j => !(2 ^ k - 1).testBit (j % 32),
      j < m ∧ ¬ j % 32 < k := by
    intro j hj
    obtain ⟨hjm, hjk⟩ := List.mem_filter.mp hj
    rw [Nat.testBit_two_pow_sub_one, Bool.not_eq_true', decide_eq_false_iff_not] at hjk
    exact ⟨List.mem_range.mp hjm, hjk⟩
  obtain ⟨j, hj, hjs⟩ := hunique _ (meetsTest_class (List.pairwise_lt_range.filter _)
    (fun j hj => (hrest j hj).1) (List.pairwise_of_forall_mem_list fun i hi j hj => by
      rw [if_neg (hrest i hi).2, if_neg (hrest j hj).2]) (by omega))
  have he := hconst i his j hjs
  rw [if_pos (hbits i hi), if_neg (hrest j hj).2] at he
  cases he

/-- Where all decisions are safe, the sizes fit. -/
theorem fits_of_safe (hsafe : ∀ f : Nat → Nat,
    ByzantineSafe (classConfig n) (classEnv f) (classStore m) "p" 1 "a") : BoundFits n m := by
  intro hmn
  split
  · rename_i hone
    exact single_of_safe hone hmn (hsafe id)
  rename_i hone
  rintro size ⟨k, hk1, hk, rfl⟩ hsize
  have hm : 1 ≤ m := by omega
  have htwo : 2 ≤ k * (m / 32 + 1) := by
    unfold acceptanceSize at hsize
    rw [if_neg hone] at hsize
    omega
  constructor
  · obtain ⟨set, text, rejectedIds, hacc, hlarge, hinc, hr, hclass⟩ :=
      class_decision (f := fun i => if i % 32 < k then 0 else i + 1) hone hmn hk1 hk
        (fun i j hi hj => by rw [if_pos hi, if_pos hj]) hsize
    have hnodup := hinc.imp Nat.ne_of_lt
    have hbound := (class_safe hm (hsafe _) hacc hnodup hr).1
    exact hbound.trans (class_is_bits hk hnodup hr (htwo.trans hlarge) hclass)
  · obtain ⟨set, text, rejectedIds, hacc, -, hinc, hr, hclass⟩ :=
      class_decision (f := fun i => if i % 32 < k then 0 else 1) hone hmn hk1 hk
        (fun i j hi hj => by rw [if_pos hi, if_pos hj]) hsize
    have hunique := (class_safe hm (hsafe _) hacc (hinc.imp Nat.ne_of_lt) hr).2
    exact other_class_small hk hsize hclass hunique

/-- The numbers of volunteers and of pending candidates at which every decision is safe. -/
theorem byzantine_bound (n m : Nat) :
    (∀ (cfg : ServerConfig) (env : DecisionEnv) (s : RlmStore) (project : String) (level : Int)
      (subject : String), cfg.quorum.n = n →
      (listPending env.submissionScan s.submissions project "rlm_node"
        (rlmJobKey project level subject)).length = m →
      ByzantineSafe cfg env s project level subject) ↔ BoundFits n m := by
  constructor
  · intro h
    refine fits_of_safe fun f => h (classConfig n) (classEnv f) (classStore m) "p" 1 "a" rfl ?_
    have hpending : listPending (classEnv f).submissionScan (classStore m).submissions "p"
        "rlm_node" (rlmJobKey "p" 1 "a") = classPending m := classPending_eq
    rw [hpending, length_classPending]
  · intro hfits cfg env s project level subject hn hm
    exact safe_of_fits hfits hn hm

/-- Quorums of two; four candidates of two texts that agree in pairs. -/
theorem byzantine_bound_pairs : ¬ ByzantineSafe (classConfig 2) (classEnv (· / 2)) (classStore 4)
    "p" 1 "a" := by
  intro h
  have hacc : (decideRlmQuorum (classConfig 2) (classEnv (· / 2)) (classStore 4) "p" 1 "a").2 =
      .ok (.accepted "" [1, 2] [3, 4]) := by decide +kernel
  have hbound := (h [[0], [1], [2], [3]] "" [1, 2] [3, 4] (by decide +kernel) (by decide +kernel)
    (by decide +kernel) hacc).1
  revert hbound
  decide +kernel

end Result

end Arags
