import Arags.Lib.Ranking
import Arags.Rlm.Publication
import Mathlib.Algebra.BigOperators.Group.List.Basic
import Mathlib.Algebra.Order.Field.Rat
import Mathlib.Data.Prod.Lex
import Mathlib.Tactic.Ring

/-!
# Arags.Rlm.TrustedChoice

Whether `choose_published` finds the most trusted of the agreeing candidates and, of several, the
one closest to the centroid. It multiplies the two and takes the first product that is highest.

* `Candidate` — a pending submission with its vector; `published` is the one that is chosen.
* `PublishesTrusted` — the most trusted one, whatever the order of the pending list.
* `published_trusted` — when it does.
-/

namespace Arags

open Ranking

/-! ## Candidates -/

structure Candidate where
  id : Int
  submission : Submission
  vector : Embedding
  /-- In the agreeing set. -/
  agrees : Bool
  deriving DecidableEq

def pendingOf (cands : List Candidate) : List (Int × Submission) :=
  cands.map fun c => (c.id, c.submission)

def vectorsOf (cands : List Candidate) : List Embedding := cands.map Candidate.vector

/-- The agreeing set as indices into the list. -/
def agreeingOf (cands : List Candidate) : List Nat :=
  (List.range cands.length).filter fun i => cands[i]?.any Candidate.agrees

def published (e : Embedder) (cfg : QuorumConfig) (ledger : List VolunteerTrust)
    (cands : List Candidate) : Option Candidate :=
  cands[choosePublished e cfg (agreeingOf cands) (pendingOf cands) (vectorsOf cands) ledger]?

def trustOf (ledger : List VolunteerTrust) (c : Candidate) : Rat :=
  (readTrust ledger c.submission.candidateBy).2

def centerOf (cands : List Candidate) : Embedding := centroid (agreeingOf cands) (vectorsOf cands)

/-- The length of the text, or the similarity to the centroid. -/
def closeness (e : Embedder) (strategy : FusionStrategy) (center : Embedding) (c : Candidate) :
    Rat :=
  match strategy with
  | .longest => (c.submission.candidateText.utf8ByteSize : Nat)
  | .consensus | .average => e.cosineSimilarity center c.vector

/-! ## What is chosen -/

section Choice

variable {e : Embedder} {cfg : QuorumConfig} {ledger : List VolunteerTrust}
  {cands cands' : List Candidate}

/-- The indices of the candidates that `p` picks, in order. -/
theorem map_indices {α : Type} (p : α → Bool) (l : List α) :
    ((List.range l.length).filter fun i => l[i]?.any p).map (fun i => l[i]?) =
      (l.filter p).map some := by
  induction l using List.reverseRecOn with
  | nil => rfl
  | append_singleton l a ih =>
    have hold : (List.range l.length).filter (fun i => (l ++ [a])[i]?.any p) =
        (List.range l.length).filter fun i => l[i]?.any p := by
      refine List.filter_congr fun i hi => ?_
      rw [List.getElem?_append_left (List.mem_range.mp hi)]
    have hmap : ((List.range l.length).filter fun i => l[i]?.any p).map (fun i => (l ++ [a])[i]?) =
        (l.filter p).map some := by
      rw [← ih]
      refine List.map_congr_left fun i hi => ?_
      rw [List.getElem?_append_left (List.mem_range.mp (List.mem_filter.mp hi).1)]
    rw [List.length_append, List.length_singleton, List.range_succ, List.filter_append, hold,
      List.map_append, hmap, List.filter_append, List.map_append]
    refine congrArg ((l.filter p).map some ++ ·) ?_
    cases ha : p a with
    | true => simp [ha]
    | false => simp [ha]

/-- The running maximum of `choose_published`. -/
theorem foldl_firstBest (score : Nat → Rat) (l : List Nat) (first : Nat) :
    (l.foldl (fun (best : Nat × Option Rat) i =>
      if best.2.all fun b => decide (b < score i) then (i, some (score i)) else best)
        (first, none)) =
      ((firstBest score l).getD first, (firstBest score l).map score) := by
  induction l using List.reverseRecOn with
  | nil => rfl
  | append_singleton l i ih =>
    rw [List.foldl_append, ih, firstBest_concat]
    cases hl : firstBest score l with
    | none => rfl
    | some j =>
      simp only [List.foldl_cons, List.foldl_nil, Option.map_some, Option.all_some]
      split
      · rfl
      · rfl

variable (cands) in
theorem map_agreeing : (agreeingOf cands).map (fun i => cands[i]?) =
    (cands.filter Candidate.agrees).map some := map_indices Candidate.agrees cands

def scoreOf (e : Embedder) (cfg : QuorumConfig) (ledger : List VolunteerTrust)
    (center : Embedding) (c : Candidate) : Rat :=
  candidateScore e cfg.fusionStrategy center c.submission c.vector (trustOf ledger c)

/-- The candidate that is published is the first agreeing one with the highest score. -/
theorem published_eq (hne : cands.filter Candidate.agrees ≠ []) :
    published e cfg ledger cands =
      firstBest (scoreOf e cfg ledger (centerOf cands)) (cands.filter Candidate.agrees) := by
  -- the score of an index is that of its candidate
  let score : Nat → Rat := fun i => (cands[i]?.map (scoreOf e cfg ledger (centerOf cands))).getD 0
  have hscore : (fun i => ((pendingOf cands)[i]?.map fun s => candidateScore e cfg.fusionStrategy
      (centroid (agreeingOf cands) (vectorsOf cands)) s.2 ((vectorsOf cands).getD i [])
      (readTrust ledger s.2.candidateBy).2).getD 0) = score := by
    funext i
    simp only [score, pendingOf, vectorsOf, List.getD_eq_getElem?_getD, List.getElem?_map]
    cases cands[i]? with
    | none => rfl
    | some c => rfl
  have hchosen : choosePublished e cfg (agreeingOf cands) (pendingOf cands) (vectorsOf cands)
      ledger = (firstBest score (agreeingOf cands)).getD ((agreeingOf cands).headD 0) := by
    rw [← hscore]
    exact congrArg Prod.fst (foldl_firstBest _ (agreeingOf cands) _)
  have hsome : (firstBest score (agreeingOf cands)).map (fun i => cands[i]?) =
      (firstBest (scoreOf e cfg ledger (centerOf cands)) (cands.filter Candidate.agrees)).map
        some := by
    have hindices := firstBest_map (f := fun c : Option Candidate =>
      (c.map (scoreOf e cfg ledger (centerOf cands))).getD 0) (fun i => cands[i]?)
        (agreeingOf cands)
    rw [map_agreeing, firstBest_map] at hindices
    exact hindices.symm
  unfold published
  rw [hchosen]
  cases hbest : firstBest score (agreeingOf cands) with
  | none =>
    rw [hbest] at hsome
    have hnone := Option.map_eq_none_iff.mp hsome.symm
    exact absurd (firstBest_eq_none.mp hnone) hne
  | some i =>
    rw [hbest, Option.map_some] at hsome
    obtain ⟨c, hc, hi⟩ := Option.map_eq_some_iff.mp hsome.symm
    rw [hc, Option.getD_some, ← hi]

/-- The centroid is the mean of the agreeing vectors. -/
theorem centerOf_eq : centerOf cands =
    (List.range ((cands.head?.map fun c => c.vector.length).getD 0)).map fun d =>
      ((cands.filter Candidate.agrees).map fun c => c.vector.getD d 0).sum /
        (max (cands.filter Candidate.agrees).length 1 : Nat) := by
  have hlength : (agreeingOf cands).length = (cands.filter Candidate.agrees).length := by
    have h := congrArg List.length (map_agreeing cands)
    rwa [List.length_map, List.length_map] at h
  have hsum : ∀ d, ((agreeingOf cands).map fun i => ((vectorsOf cands).getD i []).getD d 0) =
      (cands.filter Candidate.agrees).map fun c => c.vector.getD d 0 := by
    intro d
    have h := congrArg (List.map fun c : Option Candidate =>
      ((c.map Candidate.vector).getD []).getD d 0) (map_agreeing cands)
    rw [List.map_map, List.map_map] at h
    refine Eq.trans ?_ h
    refine List.map_congr_left fun i _ => ?_
    simp only [vectorsOf, List.getD_eq_getElem?_getD, List.getElem?_map, Function.comp_apply]
  unfold centerOf centroid
  have hhead : (vectorsOf cands).head?.map List.length =
      cands.head?.map fun c => c.vector.length := by
    unfold vectorsOf
    rw [List.head?_map, Option.map_map]
    rfl
  rw [hhead, hlength]
  refine List.map_congr_left fun d _ => ?_
  rw [hsum]

/-- Of vectors of one length the centroid does not depend on the order. -/
theorem centerOf_perm {dims : Nat} (hdims : ∀ c ∈ cands, c.vector.length = dims)
    (h : cands'.Perm cands) : centerOf cands' = centerOf cands := by
  have hagree := h.filter Candidate.agrees
  have hhead : (cands'.head?.map fun c => c.vector.length) =
      cands.head?.map fun c => c.vector.length := by
    cases hc : cands.head? with
    | none =>
      rw [List.head?_eq_none_iff.mp hc] at h
      rw [h.eq_nil]
      rfl
    | some c =>
      cases hc' : cands'.head? with
      | none =>
        rw [List.head?_eq_none_iff.mp hc'] at h
        rw [← h.nil_eq] at hc
        cases hc
      | some c' =>
        have hlen := hdims c (List.mem_of_head? hc)
        have hlen' := hdims c' (h.mem_iff.mp (List.mem_of_head? hc'))
        simp only [Option.map_some, hlen, hlen']
  rw [centerOf_eq, centerOf_eq, hhead, hagree.length_eq]
  refine List.map_congr_left fun d _ => ?_
  rw [(hagree.map _).sum_eq]

/-! ## The most trusted -/

variable (e cfg ledger cands) in
/-- No agreeing candidate has more trust, and none with the same trust is closer. -/
def MostTrusted (c : Candidate) : Prop :=
  c ∈ cands ∧ c.agrees = true ∧ ∀ d ∈ cands, d.agrees = true →
    trustOf ledger d ≤ trustOf ledger c ∧ (trustOf ledger d = trustOf ledger c →
      closeness e cfg.fusionStrategy (centerOf cands) d ≤
        closeness e cfg.fusionStrategy (centerOf cands) c)

instance (c : Candidate) : Decidable (MostTrusted e cfg ledger cands c) :=
  inferInstanceAs (Decidable (_ ∧ _ ∧ _))

variable (e cfg ledger) in
/-- One of these is published, and another order of the list changes it for one that ties. -/
structure PublishesTrusted (cands : List Candidate) : Prop where
  trusted : ∃ c, published e cfg ledger cands = some c ∧ MostTrusted e cfg ledger cands c
  stable : ∀ cands', cands'.Perm cands → ∀ c, published e cfg ledger cands = some c →
    ∃ c', published e cfg ledger cands' = some c' ∧ trustOf ledger c' = trustOf ledger c ∧
      closeness e cfg.fusionStrategy (centerOf cands) c' =
        closeness e cfg.fusionStrategy (centerOf cands) c

variable (e cfg ledger cands) in
/-- A candidate that is not one of these has the lower product of closeness and `1 + trust`. -/
def ProductsRank : Prop :=
  ∀ c, MostTrusted e cfg ledger cands c → ∀ d ∈ cands, d.agrees = true →
    MostTrusted e cfg ledger cands d ∨
      closeness e cfg.fusionStrategy (centerOf cands) d * (1 + max (trustOf ledger d) 0) <
        closeness e cfg.fusionStrategy (centerOf cands) c * (1 + max (trustOf ledger c) 0)

theorem scoreOf_eq (center : Embedding) (c : Candidate) : scoreOf e cfg ledger center c =
    closeness e cfg.fusionStrategy center c * (1 + max (trustOf ledger c) 0) / 2 := by
  have hhalf : ∀ b t : Rat, b * (1 / 2 + 1 / 2 * t) = b * (1 + t) / 2 := by
    intro b t
    ring
  exact hhalf _ _

theorem scoreOf_lt {center : Embedding} {c d : Candidate} :
    scoreOf e cfg ledger center d < scoreOf e cfg ledger center c ↔
      closeness e cfg.fusionStrategy center d * (1 + max (trustOf ledger d) 0) <
        closeness e cfg.fusionStrategy center c * (1 + max (trustOf ledger c) 0) := by
  rw [scoreOf_eq, scoreOf_eq]
  exact div_lt_div_iff_of_pos_right two_pos

theorem MostTrusted.ties {c d : Candidate} (hc : MostTrusted e cfg ledger cands c)
    (hd : MostTrusted e cfg ledger cands d) : trustOf ledger d = trustOf ledger c ∧
      closeness e cfg.fusionStrategy (centerOf cands) d =
        closeness e cfg.fusionStrategy (centerOf cands) c := by
  obtain ⟨hcm, hca, hctop⟩ := hc
  obtain ⟨hdm, hda, hdtop⟩ := hd
  have htrust := le_antisymm (hctop d hdm hda).1 (hdtop c hcm hca).1
  exact ⟨htrust, le_antisymm ((hctop d hdm hda).2 htrust) ((hdtop c hcm hca).2 htrust.symm)⟩

theorem MostTrusted.of_ties {c d : Candidate} (hc : MostTrusted e cfg ledger cands c)
    (hd : d ∈ cands) (hda : d.agrees = true) (htrust : trustOf ledger d = trustOf ledger c)
    (hclose : closeness e cfg.fusionStrategy (centerOf cands) d =
      closeness e cfg.fusionStrategy (centerOf cands) c) : MostTrusted e cfg ledger cands d := by
  refine ⟨hd, hda, fun b hb hba => ?_⟩
  rw [htrust, hclose]
  exact hc.2.2 b hb hba

variable (e cfg ledger) in
/-- The first of highest trust and closeness, compared in this order. -/
theorem exists_mostTrusted (hne : cands.filter Candidate.agrees ≠ []) :
    ∃ c, MostTrusted e cfg ledger cands c := by
  cases hbest : firstBest (fun c => toLex (trustOf ledger c,
      closeness e cfg.fusionStrategy (centerOf cands) c)) (cands.filter Candidate.agrees) with
  | none => exact absurd (firstBest_eq_none.mp hbest) hne
  | some c =>
    obtain ⟨hmem, hmax⟩ := firstBest_max hbest
    obtain ⟨hc, hca⟩ := List.mem_filter.mp hmem
    refine ⟨c, hc, hca, fun d hd hda => ?_⟩
    obtain hlt | ⟨heq, hle⟩ := Prod.Lex.le_iff.mp (hmax d (List.mem_filter.mpr ⟨hd, hda⟩))
    · exact ⟨le_of_lt hlt, fun heq => absurd hlt (heq ▸ lt_irrefl _)⟩
    · exact ⟨le_of_eq heq, fun _ => hle⟩

variable (e cfg ledger) in
/-- What is published has the highest score of the agreeing candidates. -/
theorem published_max (hne : cands.filter Candidate.agrees ≠ []) :
    ∃ c, published e cfg ledger cands = some c ∧ c ∈ cands ∧ c.agrees = true ∧
      ∀ d ∈ cands, d.agrees = true → scoreOf e cfg ledger (centerOf cands) d ≤
        scoreOf e cfg ledger (centerOf cands) c := by
  rw [published_eq hne]
  cases hbest : firstBest (scoreOf e cfg ledger (centerOf cands))
      (cands.filter Candidate.agrees) with
  | none => exact absurd (firstBest_eq_none.mp hbest) hne
  | some c =>
    obtain ⟨hmem, hmax⟩ := firstBest_max hbest
    obtain ⟨hc, hca⟩ := List.mem_filter.mp hmem
    exact ⟨c, rfl, hc, hca, fun d hd hda => hmax d (List.mem_filter.mpr ⟨hd, hda⟩)⟩

end Choice

/-- Of the agreeing candidates the most trusted and, of these, the closest one is published, in
every order of the list, exactly when its product of closeness and trust is above that of every
candidate that trust and closeness put behind it. -/
theorem published_trusted (e : Embedder) (cfg : QuorumConfig) (ledger : List VolunteerTrust)
    (cands : List Candidate) {dims : Nat} (hdims : ∀ c ∈ cands, c.vector.length = dims)
    (hne : cands.filter Candidate.agrees ≠ []) :
    PublishesTrusted e cfg ledger cands ↔ ProductsRank e cfg ledger cands := by
  obtain ⟨r, hr, hrm, hra, hrmax⟩ := published_max e cfg ledger hne
  constructor
  · intro h c hc d hd hda
    rw [or_iff_not_imp_right, ← scoreOf_lt, not_lt]
    intro hle
    obtain ⟨r', hr', htop⟩ := h.trusted
    obtain rfl : r = r' := Option.some.inj (hr.symm.trans hr')
    obtain ⟨htrust, hclose⟩ := htop.ties hc
    have hscore : scoreOf e cfg ledger (centerOf cands) c =
        scoreOf e cfg ledger (centerOf cands) r := by
      rw [scoreOf_eq, scoreOf_eq, htrust, hclose]
    -- put in front, `d` is the first one with the highest score
    have hperm : (d :: cands.erase d).Perm cands := (List.perm_cons_erase hd).symm
    have hpublished : published e cfg ledger (d :: cands.erase d) = some d := by
      have hfilter : (d :: cands.erase d).filter Candidate.agrees =
          d :: (cands.erase d).filter Candidate.agrees := List.filter_cons_of_pos hda
      rw [published_eq (by rw [hfilter]; exact List.cons_ne_nil _ _), hfilter,
        centerOf_perm hdims hperm]
      refine firstBest_cons fun b hb => ?_
      obtain ⟨hb, hba⟩ := List.mem_filter.mp hb
      refine (hrmax b (List.mem_of_mem_erase hb) hba).trans ?_
      rw [← hscore]
      exact hle
    obtain ⟨d', hd', htrust', hclose'⟩ := h.stable _ hperm r hr
    obtain rfl : d = d' := Option.some.inj (hpublished.symm.trans hd')
    exact htop.of_ties hd hda htrust' hclose'
  · intro h
    obtain ⟨m, hm⟩ := exists_mostTrusted e cfg ledger hne
    have htop : ∀ c ∈ cands, c.agrees = true → (∀ d ∈ cands, d.agrees = true →
        scoreOf e cfg ledger (centerOf cands) d ≤ scoreOf e cfg ledger (centerOf cands) c) →
        MostTrusted e cfg ledger cands c := by
      intro c hc hca hmax
      refine (h m hm c hc hca).resolve_right fun hlt => ?_
      exact absurd (scoreOf_lt.mpr hlt) (not_lt.mpr (hmax m hm.1 hm.2.1))
    refine ⟨⟨r, hr, htop r hrm hra hrmax⟩, ?_⟩
    intro cands' hperm c hc
    obtain rfl : r = c := Option.some.inj (hr.symm.trans hc)
    have hne' : cands'.filter Candidate.agrees ≠ [] := fun hnil => by
      have hlength := (hperm.filter Candidate.agrees).length_eq
      rw [hnil] at hlength
      exact hne (List.length_eq_zero_iff.mp hlength.symm)
    obtain ⟨c', hc', hcm', hca', hmax'⟩ := published_max e cfg ledger hne'
    rw [centerOf_perm hdims hperm] at hmax'
    have htop' : MostTrusted e cfg ledger cands c' := by
      refine htop c' (hperm.mem_iff.mp hcm') hca' fun d hd hda => ?_
      exact hmax' d (hperm.mem_iff.mpr hd) hda
    exact ⟨c', hc', (htop r hrm hra hrmax).ties htop'⟩

/-! ## A long text -/

def candidateBy (id : Int) (volunteer text : String) : Candidate where
  id := id
  submission := ⟨"p", "L1", "s", text, volunteer, none, .candidate, 0, none, none⟩
  vector := [1]
  agrees := true

def longestConfig : QuorumConfig := ⟨4, 3 / 4, .longest, 3⟩

/-- Bob has lost half of his trust. -/
def bobDistrusted : List VolunteerTrust := [⟨"ann", 0, 1⟩, ⟨"bob", 1, 1 / 2⟩]

/-- Both texts are of one length. -/
theorem published_trusted_ann :
    PublishesTrusted sampleEmbedder longestConfig bobDistrusted
      [candidateBy 1 "bob" "short", candidateBy 2 "ann" "texts"] := by
  have hdims : ∀ c ∈ [candidateBy 1 "bob" "short", candidateBy 2 "ann" "texts"],
      c.vector.length = 1 := by
    decide
  refine (published_trusted sampleEmbedder longestConfig bobDistrusted _ hdims
    (by decide)).mpr ?_
  have hrank : ∀ c ∈ [candidateBy 1 "bob" "short", candidateBy 2 "ann" "texts"],
      MostTrusted sampleEmbedder longestConfig bobDistrusted
        [candidateBy 1 "bob" "short", candidateBy 2 "ann" "texts"] c →
      c = candidateBy 2 "ann" "texts" := by
    decide +kernel
  intro c hc
  obtain rfl := hrank c hc.1 hc
  decide +kernel

/-- Bob's text is long, and is published before that of Ann. -/
theorem published_trusted_not :
    ¬ PublishesTrusted sampleEmbedder longestConfig bobDistrusted
      [candidateBy 1 "bob" "a longer text", candidateBy 2 "ann" "short"] := by
  intro h
  obtain ⟨c, hc, -, -, htop⟩ := h.trusted
  have hbob : published sampleEmbedder longestConfig bobDistrusted
      [candidateBy 1 "bob" "a longer text", candidateBy 2 "ann" "short"] =
        some (candidateBy 1 "bob" "a longer text") := by
    decide +kernel
  obtain rfl := Option.some.inj (hbob.symm.trans hc)
  have hann := (htop (candidateBy 2 "ann" "short") (by decide) rfl).1
  revert hann
  decide +kernel

end Arags
