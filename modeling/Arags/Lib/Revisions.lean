import Arags.Lib.Table

/-!
# Sql.Revisions

Tables that keep every revision of a subject: a write adds a row and takes the live mark from the
row before it. Each row has the epoch it is stamped with.

* `RevisionLog`  — a table without its other columns: row id, subject and epoch of each revision.
* `latest`, `asOf` — the last revision of a subject, and the greatest by `(epoch, id)` of those
  stamped with an epoch up to `T`.
* `Versioned`    — row ids increase, and the live rows are the latest ones; `liveRow_eq_latest`.
* `Marks`, `Supersedes` — the two kinds of writes that keep it.
* `LiveLast`     — what is left of that where rows are deleted as well.
* `asOf_eq_latest`, `asOf_unstamped` — what `asOf` reads where epochs increase, and where no write
  stamps them.
-/

namespace Sql

/-- A row id, its subject and its stamp. -/
structure Revision (κ : Type) where
  id : Int
  subject : κ
  epoch : Int
  deriving DecidableEq, Repr

abbrev RevisionLog (κ : Type) := List (Revision κ)

/-- Row ids increase. -/
def Increasing {κ : Type} (log : RevisionLog κ) : Prop := log.Pairwise fun a b => a.id < b.id

/-- The columns a table of revisions is read by. -/
structure RevisionColumns (ρ κ : Type) where
  subject : ρ → κ
  epoch : ρ → Int
  live : ρ → Bool

section Log

variable {κ ρ : Type} (c : RevisionColumns ρ κ)

def revisionLog (t : Table ρ) : RevisionLog κ :=
  t.rows.map fun x => ⟨x.1, c.subject x.2, c.epoch x.2⟩

variable {c}

theorem mem_revisionLog {t : Table ρ} {r : Revision κ} : r ∈ revisionLog c t ↔
    ∃ x ∈ t.rows, r = ⟨x.1, c.subject x.2, c.epoch x.2⟩ := by
  simp only [revisionLog, List.mem_map, eq_comm]

theorem revisionLog_update {t : Table ρ} {p : Int → ρ → Bool} {f : Int → ρ → ρ}
    (hs : ∀ i r, c.subject (f i r) = c.subject r) (he : ∀ i r, c.epoch (f i r) = c.epoch r) :
    revisionLog c (t.update p f) = revisionLog c t := by
  unfold revisionLog Table.update
  dsimp only
  rw [List.map_map]
  refine List.map_congr_left fun x _ => ?_
  dsimp only [Function.comp_apply]
  split
  · rw [hs, he]
  · rfl

theorem revisionLog_insert (t : Table ρ) (r : ρ) :
    revisionLog c (t.insert r) = revisionLog c t ++ [⟨t.nextId, c.subject r, c.epoch r⟩] := by
  unfold revisionLog Table.insert
  dsimp only
  rw [List.map_append]
  rfl

end Log

variable {κ : Type} [DecidableEq κ]

def latest (log : RevisionLog κ) (k : κ) : Option Int :=
  ((log.filter fun r => r.subject == k).getLast?).map Revision.id

/-- `ORDER BY epoch DESC, id DESC`. -/
def Revision.newer (a b : Revision κ) : Bool :=
  decide (b.epoch < a.epoch) || (a.epoch == b.epoch && decide (b.id < a.id))

def asOf (log : RevisionLog κ) (k : κ) (T : Int) : Option Int :=
  (firstBy Revision.newer (log.filter fun r => r.subject == k && decide (r.epoch ≤ T))).map
    Revision.id

/-! ## Logs -/

theorem firstBy_last {α : Type} {lt : α → α → Bool} {l : List α}
    (h : l.Pairwise fun a b => lt b a = true) : firstBy lt l = l.getLast? := by
  induction l with
  | nil => rfl
  | cons a l ih =>
    obtain ⟨ha, hl⟩ := List.pairwise_cons.mp h
    rw [firstBy, ih hl]
    cases hlast : l.getLast? with
    | none => rw [List.getLast?_eq_none_iff.mp hlast]; rfl
    | some b =>
      have hb := List.mem_of_getLast? hlast
      dsimp only
      rw [if_pos (ha b hb)]
      cases l with
      | nil => cases hb
      | cons c l => rw [List.getLast?_cons_cons, hlast]

theorem mem_of_latest {log : RevisionLog κ} {k : κ} {i : Int} (h : latest log k = some i) :
    ∃ r ∈ log, r.id = i ∧ r.subject = k := by
  obtain ⟨r, hr, rfl⟩ := Option.map_eq_some_iff.mp h
  obtain ⟨hm, hk⟩ := List.mem_filter.mp (List.mem_of_getLast? hr)
  exact ⟨r, hm, rfl, beq_iff_eq.mp hk⟩

theorem latest_eq_none {log : RevisionLog κ} {k : κ} :
    latest log k = none ↔ ∀ r ∈ log, r.subject ≠ k := by
  unfold latest
  rw [Option.map_eq_none_iff, List.getLast?_eq_none_iff, List.filter_eq_nil_iff]
  simp

theorem latest_append (log log' : RevisionLog κ) (k : κ) :
    latest (log ++ log') k = (latest log' k).or (latest log k) := by
  unfold latest
  rw [List.filter_append, List.getLast?_append]
  cases (log'.filter fun r => r.subject == k).getLast? <;> rfl

theorem latest_concat (log : RevisionLog κ) (r : Revision κ) (k : κ) :
    latest (log ++ [r]) k = if r.subject = k then some r.id else latest log k := by
  rw [latest_append]
  by_cases h : r.subject = k <;> simp [latest, h]

/-- The latest revision has the greatest row id. -/
theorem latest_eq_some {log : RevisionLog κ} {k : κ} {i : Int} (h : Increasing log) :
    latest log k = some i ↔ (∃ r ∈ log, r.subject = k ∧ r.id = i) ∧
      ∀ r ∈ log, r.subject = k → r.id ≤ i := by
  have hlast : ∀ {a}, (log.filter fun r => r.subject == k).getLast? = some a →
      ∀ r ∈ log, r.subject = k → r.id ≤ a.id := by
    intro a ha r hr hk
    obtain ⟨init, hinit⟩ := List.getLast?_eq_some_iff.mp ha
    have hsorted : Increasing (init ++ [a]) :=
      hinit ▸ h.sublist (List.filter_sublist (p := fun r : Revision κ => r.subject == k))
    have hmem : r ∈ init ++ [a] := hinit ▸ List.mem_filter.mpr ⟨hr, beq_iff_eq.mpr hk⟩
    rcases List.mem_append.mp hmem with hi | hi
    · exact Int.le_of_lt ((List.pairwise_append.mp hsorted).2.2 r hi a (List.mem_singleton_self a))
    · exact Int.le_of_eq (congrArg Revision.id (List.mem_singleton.mp hi))
  unfold latest
  constructor
  · intro hi
    obtain ⟨a, ha, rfl⟩ := Option.map_eq_some_iff.mp hi
    obtain ⟨hmem, hk⟩ := List.mem_filter.mp (List.mem_of_getLast? ha)
    exact ⟨⟨a, hmem, beq_iff_eq.mp hk, rfl⟩, hlast ha⟩
  · rintro ⟨⟨r, hr, hk, rfl⟩, hmax⟩
    cases ha : (log.filter fun r => r.subject == k).getLast? with
    | none =>
      have hnil := List.getLast?_eq_none_iff.mp ha
      have hmem : r ∈ log.filter fun r => r.subject == k :=
        List.mem_filter.mpr ⟨hr, beq_iff_eq.mpr hk⟩
      rw [hnil] at hmem
      cases hmem
    | some a =>
      obtain ⟨hmem, hka⟩ := List.mem_filter.mp (List.mem_of_getLast? ha)
      have hle := hmax a hmem (beq_iff_eq.mp hka)
      have hge := hlast ha r hr hk
      rw [Option.map_some, Option.some.injEq]
      omega

/-- What is added later leaves the latest revision of a subject as it was when it adds none. -/
theorem latest_append_iff {log log' : RevisionLog κ} {k : κ} (h : Increasing (log ++ log')) :
    latest (log ++ log') k = latest log k ↔ ∀ r ∈ log', r.subject ≠ k := by
  rw [latest_append, ← latest_eq_none]
  constructor
  · intro he
    cases hn : latest log' k with
    | none => rfl
    | some i =>
      rw [hn, Option.some_or] at he
      obtain ⟨r, hr, rfl, -⟩ := mem_of_latest hn
      obtain ⟨r', hr', hi, -⟩ := mem_of_latest he.symm
      have hlt := (List.pairwise_append.mp h).2.2 r' hr' r hr
      rw [hi] at hlt
      exact absurd hlt (Int.lt_irrefl _)
  · intro hn
    rw [hn, Option.none_or]

/-- Where epochs do not decrease, the revision as of `T` is the latest that is stamped by then. -/
theorem asOf_eq_latest {log : RevisionLog κ} {k : κ} {T : Int} (h : log.Pairwise fun a b =>
    a.id < b.id ∧ (a.subject = k → b.subject = k → a.epoch ≤ b.epoch)) :
    asOf log k T = latest (log.filter fun r => decide (r.epoch ≤ T)) k := by
  unfold asOf latest
  rw [List.filter_filter, firstBy_last]
  refine List.Pairwise.imp_of_mem ?_ (h.filter _)
  intro a b ha hb hab
  obtain ⟨-, ha⟩ := List.mem_filter.mp ha
  obtain ⟨-, hb⟩ := List.mem_filter.mp hb
  simp only [Bool.and_eq_true, beq_iff_eq] at ha hb
  have hle := hab.2 ha.1 hb.1
  have hid := hab.1
  simp only [Revision.newer, Bool.or_eq_true, Bool.and_eq_true, decide_eq_true_eq, beq_iff_eq]
  omega

/-- Where nothing is stamped, it is the latest of all. -/
theorem asOf_unstamped {log : RevisionLog κ} {T : Int} (h : Increasing log)
    (hzero : ∀ r ∈ log, r.epoch = 0) (hT : 0 ≤ T) (k : κ) : asOf log k T = latest log k := by
  have hmono : log.Pairwise fun a b =>
      a.id < b.id ∧ (a.subject = k → b.subject = k → a.epoch ≤ b.epoch) := by
    refine List.Pairwise.imp_of_mem ?_ h
    intro a b ha hb hab
    exact ⟨hab, fun _ _ => Int.le_of_eq ((hzero a ha).trans (hzero b hb).symm)⟩
  rw [asOf_eq_latest hmono, List.filter_eq_self.mpr]
  intro r hr
  simpa [hzero r hr] using hT

/-- The revisions stamped by `T` are those of the part of the log that ends with `T`. -/
theorem latest_stamped {log new : RevisionLog κ} {k : κ} {T : Int}
    (hold : ∀ r ∈ log, r.subject = k → r.epoch ≤ T)
    (hnew : ∀ r ∈ new, r.subject = k → T < r.epoch) :
    latest ((log ++ new).filter fun r => decide (r.epoch ≤ T)) k = latest log k := by
  have hnone : latest (new.filter fun r => decide (r.epoch ≤ T)) k = none := by
    refine latest_eq_none.mpr fun r hr hk => ?_
    obtain ⟨hm, hle⟩ := List.mem_filter.mp hr
    have := hnew r hm hk
    rw [decide_eq_true_eq] at hle
    omega
  have hkept : latest (log.filter fun r => decide (r.epoch ≤ T)) k = latest log k := by
    unfold latest
    rw [List.filter_filter]
    refine congrArg (fun l => (List.getLast? l).map Revision.id) (List.filter_congr fun r hr => ?_)
    cases hk : r.subject == k with
    | false => rfl
    | true => simpa using hold r hr (beq_iff_eq.mp hk)
  rw [List.filter_append, latest_append, hnone, hkept, Option.none_or]

/-! ## Tables -/

variable {ρ : Type} (c : RevisionColumns ρ κ)

def liveRow (t : Table ρ) (k : κ) : Option Int :=
  ((t.select fun _ r => c.subject r == k && c.live r).head?).map Prod.fst

structure Versioned (t : Table ρ) : Prop where
  increasing : Increasing (revisionLog c t)
  live : ∀ x ∈ t.rows, c.live x.2 = true ↔ latest (revisionLog c t) (c.subject x.2) = some x.1

variable {c}

theorem firstBy_map {α β : Type} (lt : β → β → Bool) (f : α → β) (l : List α) :
    firstBy lt (l.map f) = (firstBy (fun a b => lt (f a) (f b)) l).map f := by
  induction l with
  | nil => rfl
  | cons a l ih =>
    rw [List.map_cons, firstBy, ih, firstBy]
    cases firstBy (fun a b => lt (f a) (f b)) l with
    | none => rfl
    | some b =>
      dsimp only [Option.map_some]
      split <;> rfl

/-- The read: `WHERE … AND epoch <= T ORDER BY epoch DESC, id DESC LIMIT 1`. -/
theorem firstBy_asOf {t : Table ρ} {k : κ} {p : ρ → Bool} (hp : ∀ r, p r = true ↔ c.subject r = k)
    (T : Int) : (firstBy (fun x y => decide (c.epoch y.2 < c.epoch x.2) ||
        (c.epoch x.2 == c.epoch y.2 && decide (y.1 < x.1)))
      (t.select fun _ r => p r && decide (c.epoch r ≤ T))).map Prod.fst =
    asOf (revisionLog c t) k T := by
  have hsame : (t.select fun _ r => p r && decide (c.epoch r ≤ T)) =
      t.select fun _ r => c.subject r == k && decide (c.epoch r ≤ T) := by
    refine List.filter_congr fun x _ => congrArg (· && _) ?_
    rw [Bool.eq_iff_iff, hp, beq_iff_eq]
  unfold asOf revisionLog
  rw [hsame, List.filter_map, firstBy_map, Option.map_map]
  rfl

theorem liveRow_eq_latest {t : Table ρ} (h : Versioned c t) (k : κ) :
    liveRow c t k = latest (revisionLog c t) k := by
  unfold liveRow
  cases hl : latest (revisionLog c t) k with
  | none =>
    have hnone : (t.select fun _ r => c.subject r == k && c.live r) = [] := by
      refine List.filter_eq_nil_iff.mpr fun x hx => ?_
      have := latest_eq_none.mp hl _ (mem_revisionLog.mpr ⟨x, hx, rfl⟩)
      simp [this]
    rw [hnone]
    rfl
  | some i =>
    obtain ⟨r, hr, rfl, hk⟩ := mem_of_latest hl
    obtain ⟨x, hx, rfl⟩ := mem_revisionLog.mp hr
    dsimp only at hk hl
    have hlive : c.live x.2 = true := (h.live x hx).mpr (hk ▸ hl)
    have hmem : x ∈ t.select fun _ r => c.subject r == k && c.live r :=
      Table.mem_select.mpr ⟨hx, by simp [hk, hlive]⟩
    cases hs : t.select fun _ r => c.subject r == k && c.live r with
    | nil => rw [hs] at hmem; cases hmem
    | cons y l =>
      have hy : y ∈ t.select fun _ r => c.subject r == k && c.live r := hs ▸ List.mem_cons_self
      obtain ⟨hm, hp⟩ := Table.mem_select.mp hy
      rw [Bool.and_eq_true, beq_iff_eq] at hp
      have := (h.live y hm).mp hp.2
      rw [hp.1, hl, Option.some.injEq] at this
      rw [List.head?_cons, Option.map_some, this]

/-- An earlier table has the row that is live now iff it has all rows of the subject. -/
theorem latest_past_iff {t t' : Table ρ} {new : RevisionLog κ} (h : Versioned c t)
    (h' : Versioned c t') (hlog : revisionLog c t' = revisionLog c t ++ new) (k : κ) :
    latest (revisionLog c t') k = liveRow c t k ↔
      ∀ x ∈ t'.rows, c.subject x.2 = k → ∃ y ∈ t.rows, y.1 = x.1 := by
  have hinc : Increasing (revisionLog c t ++ new) := hlog ▸ h'.increasing
  rw [liveRow_eq_latest h, hlog, latest_append_iff hinc]
  constructor
  · intro hnew x hx hk
    have hm := mem_revisionLog (c := c).mpr ⟨x, hx, rfl⟩
    rw [hlog, List.mem_append] at hm
    rcases hm with hm | hm
    · obtain ⟨y, hy, he⟩ := mem_revisionLog.mp hm
      exact ⟨y, hy, (congrArg Revision.id he).symm⟩
    · exact absurd hk (hnew _ hm)
  · intro hrows r hr hk
    have hm : r ∈ revisionLog c t' := hlog ▸ List.mem_append_right _ hr
    obtain ⟨x, hx, rfl⟩ := mem_revisionLog.mp hm
    obtain ⟨y, hy, he⟩ := hrows x hx hk
    have hlt := (List.pairwise_append.mp hinc).2.2 _ (mem_revisionLog.mpr ⟨y, hy, rfl⟩) _ hr
    dsimp only at hlt
    omega

theorem Versioned.empty : Versioned c Table.empty where
  increasing := List.Pairwise.nil
  live := by intro x hx; cases hx

/-- A write of other columns. -/
structure Marks (c : RevisionColumns ρ κ) (t t' : Table ρ) : Prop where
  log : revisionLog c t' = revisionLog c t
  rows : ∀ x ∈ t'.rows, ∃ r, (x.1, r) ∈ t.rows ∧ c.subject x.2 = c.subject r ∧
    c.live x.2 = c.live r

namespace Marks

variable {t t' t'' : Table ρ}

omit [DecidableEq κ] in
theorem refl (t : Table ρ) : Marks c t t := ⟨rfl, fun x hx => ⟨x.2, hx, rfl, rfl⟩⟩

omit [DecidableEq κ] in
theorem trans (h : Marks c t t') (h' : Marks c t' t'') : Marks c t t'' := by
  refine ⟨h'.log.trans h.log, fun x hx => ?_⟩
  obtain ⟨r', hr', hs', hl'⟩ := h'.rows x hx
  obtain ⟨r, hr, hs, hl⟩ := h.rows _ hr'
  exact ⟨r, hr, hs'.trans hs, hl'.trans hl⟩

omit [DecidableEq κ] in
theorem update (t : Table ρ) {p : Int → ρ → Bool} {f : Int → ρ → ρ}
    (hs : ∀ i r, c.subject (f i r) = c.subject r) (he : ∀ i r, c.epoch (f i r) = c.epoch r)
    (hl : ∀ i r, c.live (f i r) = c.live r) : Marks c t (t.update p f) := by
  refine ⟨revisionLog_update hs he, ?_⟩
  rintro ⟨i, r⟩ hx
  obtain ⟨r₀, hr₀, rfl⟩ := Table.mem_update.mp hx
  refine ⟨r₀, hr₀, ?_⟩
  dsimp only
  split
  · exact ⟨hs i r₀, hl i r₀⟩
  · exact ⟨rfl, rfl⟩

end Marks

theorem Versioned.marks {t t' : Table ρ} (h : Versioned c t) (hm : Marks c t t') :
    Versioned c t' := by
  refine ⟨hm.log ▸ h.increasing, fun x hx => ?_⟩
  obtain ⟨r, hr, hs, hl⟩ := hm.rows x hx
  rw [hm.log, hs, hl]
  exact h.live _ hr

/-- A write that adds the row `id` and takes the live mark from the others of its subject. -/
structure Supersedes (c : RevisionColumns ρ κ) (t t' : Table ρ) (id : Int) (r : ρ) : Prop where
  log : revisionLog c t' = revisionLog c t ++ [⟨id, c.subject r, c.epoch r⟩]
  above : ∀ x ∈ t.rows, x.1 < id
  new : ∀ s, (id, s) ∈ t'.rows → c.live s = true
  old : ∀ x ∈ t'.rows, x.1 ≠ id → ∃ s, (x.1, s) ∈ t.rows ∧ c.subject x.2 = c.subject s ∧
    (c.live x.2 = true ↔ c.live s = true ∧ c.subject s ≠ c.subject r)

namespace Supersedes

variable {t t' : Table ρ} {id : Int} {r : ρ}

omit [DecidableEq κ] in
theorem increasing (hs : Supersedes c t t' id r) (h : Increasing (revisionLog c t)) :
    Increasing (revisionLog c t') := by
  unfold Increasing
  rw [hs.log]
  refine List.pairwise_append.mpr ⟨h, List.pairwise_singleton _ _, ?_⟩
  intro a ha b hb
  obtain ⟨x, hx, rfl⟩ := mem_revisionLog.mp ha
  rw [List.mem_singleton] at hb
  rw [hb]
  exact hs.above x hx

omit [DecidableEq κ] in
theorem subject_new (hs : Supersedes c t t' id r) {x : Int × ρ} (hx : x ∈ t'.rows)
    (hi : x.1 = id) : c.subject x.2 = c.subject r := by
  have hx' := mem_revisionLog (c := c).mpr ⟨x, hx, rfl⟩
  rw [hs.log, List.mem_append] at hx'
  rcases hx' with hm | hm
  · obtain ⟨y, hy, he⟩ := mem_revisionLog.mp hm
    have habove := hs.above y hy
    rw [Revision.mk.injEq] at he
    omega
  · rw [List.mem_singleton, Revision.mk.injEq] at hm
    exact hm.2.1

end Supersedes

theorem Versioned.supersede {t t' : Table ρ} {id : Int} {r : ρ} (h : Versioned c t)
    (hs : Supersedes c t t' id r) : Versioned c t' := by
  refine ⟨hs.increasing h.increasing, fun x hx => ?_⟩
  rw [hs.log, latest_concat]
  by_cases hi : x.1 = id
  · rw [if_pos (hs.subject_new hx hi).symm]
    exact iff_of_true (hs.new x.2 (hi ▸ hx)) (by rw [hi])
  · obtain ⟨s, hm, hsub, hlive⟩ := hs.old x hx hi
    rw [hlive, hsub]
    by_cases hk : c.subject s = c.subject r
    · rw [if_pos hk.symm, Option.some.injEq]
      exact iff_of_false (fun h => h.2 hk) (Ne.symm hi)
    · rw [if_neg (Ne.symm hk)]
      exact ⟨fun hl => (h.live _ hm).mp hl.1, fun hl => ⟨(h.live _ hm).mpr hl, hk⟩⟩

/-- A subject has one live row at most. -/
def LiveUnique (c : RevisionColumns ρ κ) (t : Table ρ) : Prop :=
  ∀ x ∈ t.rows, ∀ y ∈ t.rows, c.live x.2 = true → c.live y.2 = true →
    c.subject x.2 = c.subject y.2 → x.1 = y.1

theorem Versioned.liveUnique {t : Table ρ} (h : Versioned c t) : LiveUnique c t := by
  intro x hx y hy hxl hyl hk
  have hlx := (h.live x hx).mp hxl
  have hly := (h.live y hy).mp hyl
  rw [hk, hly, Option.some.injEq] at hlx
  exact hlx.symm

theorem nextId_update (t : Table ρ) (p : Int → ρ → Bool) (f : Int → ρ → ρ) :
    (t.update p f).nextId = t.nextId := by
  unfold Table.nextId Table.maxId
  rw [Table.ids_update]

/-- The row that is superseded: some row of the subject that is live. -/
def IsCurrent (c : RevisionColumns ρ κ) (t : Table ρ) (k : κ) (old : Option Int) : Prop :=
  (∀ i ∈ old, ∃ s, (i, s) ∈ t.rows ∧ c.subject s = k ∧ c.live s = true) ∧
    (old = none → ∀ x ∈ t.rows, c.subject x.2 = k → c.live x.2 = false)

omit [DecidableEq κ] in
theorem isCurrent_scan {scan : ScanOrder ρ} {t : Table ρ} {k : κ} {p : ρ → Bool}
    (hp : ∀ r, p r = true ↔ c.subject r = k ∧ c.live r = true) :
    IsCurrent c t k (((scan.order (t.select fun _ r => p r)).head?).map Prod.fst) := by
  constructor
  · intro i hi
    obtain ⟨x, hx, rfl⟩ := Option.map_eq_some_iff.mp hi
    obtain ⟨hm, hx⟩ := Table.mem_select.mp (scan.mem_order.mp (List.mem_of_head? hx))
    exact ⟨x.2, hm, (hp x.2).mp hx⟩
  · intro hnone x hx hk
    rw [Option.map_eq_none_iff, List.head?_eq_none_iff] at hnone
    cases hl : c.live x.2 with
    | false => rfl
    | true =>
      have hmem : x ∈ scan.order (t.select fun _ r => p r) :=
        scan.mem_order.mpr (Table.mem_select.mpr ⟨hx, (hp x.2).mpr ⟨hk, hl⟩⟩)
      rw [hnone] at hmem
      cases hmem

omit [DecidableEq κ] in
/-- Retire the current row, insert, link the two. -/
theorem LiveUnique.write {t : Table ρ} (h : LiveUnique c t) {old : Option Int} (r : ρ)
    (hold : IsCurrent c t (c.subject r) old) (hr : c.live r = true) (retire link : ρ → ρ)
    (hretire : ∀ s, c.subject (retire s) = c.subject s ∧ c.epoch (retire s) = c.epoch s ∧
      c.live (retire s) = false)
    (hlink : ∀ s, c.subject (link s) = c.subject s ∧ c.epoch (link s) = c.epoch s ∧
      c.live (link s) = c.live s) :
    Supersedes c t (((t.update (fun i s => some i == old && c.live s) fun _ s => retire s).insert
      r).update (fun i _ => some i == old) fun _ s => link s) t.nextId r := by
  set retired := t.update (fun i s => some i == old && c.live s) fun _ s => retire s with hret
  have hnext : retired.nextId = t.nextId := nextId_update _ _ _
  have habove : ∀ x ∈ t.rows, x.1 < t.nextId := fun x hx => Table.lt_nextId hx
  have hne : some t.nextId ≠ old := by
    intro he
    obtain ⟨s, hs, -⟩ := hold.1 t.nextId he.symm
    exact Int.lt_irrefl _ (habove _ hs)
  refine ⟨?_, habove, ?_, ?_⟩
  · rw [revisionLog_update (fun _ s => (hlink s).1) (fun _ s => (hlink s).2.1),
      revisionLog_insert, hret,
      revisionLog_update (fun _ s => (hretire s).1) (fun _ s => (hretire s).2.1), ← hret, hnext]
  · intro s hs
    obtain ⟨s₁, hs₁, rfl⟩ := Table.mem_update.mp hs
    rw [if_neg (by simpa using hne)]
    rcases Table.mem_insert.mp hs₁ with hm | ⟨-, rfl⟩
    · obtain ⟨s₀, hs₀, -⟩ := Table.mem_update.mp hm
      exact absurd (habove _ hs₀) (Int.lt_irrefl _)
    · exact hr
  · rintro ⟨i, s⟩ hs hi
    obtain ⟨s₁, hs₁, rfl⟩ := Table.mem_update.mp hs
    rcases Table.mem_insert.mp hs₁ with hm | ⟨he, -⟩
    · obtain ⟨s₀, hs₀, rfl⟩ := Table.mem_update.mp hm
      refine ⟨s₀, hs₀, ?_⟩
      dsimp only at hi ⊢
      by_cases ho : some i = old
      · obtain ⟨s', hs', hk, hl⟩ := hold.1 i ho.symm
        obtain rfl := Table.eq_of_mem hs₀ hs'
        have h₁ := hretire s₀
        have h₂ := hlink (retire s₀)
        rw [if_pos (by simpa using ho), if_pos (by simp [ho, hl])]
        exact ⟨h₂.1.trans h₁.1, by rw [h₂.2.2, h₁.2.2]; simp [hk]⟩
      · rw [if_neg (by simpa using ho), if_neg (by simp [ho])]
        refine ⟨rfl, fun hl => ⟨hl, fun hk => ?_⟩, fun hl => hl.1⟩
        cases hold' : old with
        | none =>
          rw [hold.2 hold' _ hs₀ hk] at hl
          cases hl
        | some j =>
          obtain ⟨s', hs', hk', hl'⟩ := hold.1 j hold'
          refine ho ?_
          rw [hold', Option.some.injEq]
          exact h _ hs₀ _ hs' hl hl' (hk.trans hk'.symm)
    · exact absurd (he.trans hnext) hi

omit [DecidableEq κ] in
/-- A subject without a live row: there is nothing to retire. -/
theorem supersedes_insert {t : Table ρ} (r : ρ) (hold : IsCurrent c t (c.subject r) none)
    (hr : c.live r = true) :
    Supersedes c t (t.insert r) t.nextId r := by
  have habove : ∀ x ∈ t.rows, x.1 < t.nextId := fun x hx => Table.lt_nextId hx
  refine ⟨revisionLog_insert t r, habove, ?_, ?_⟩
  · intro s hs
    rcases Table.mem_insert.mp hs with hm | ⟨-, rfl⟩
    · exact absurd (habove _ hm) (Int.lt_irrefl _)
    · exact hr
  · rintro ⟨i, s⟩ hs hi
    rcases Table.mem_insert.mp hs with hm | ⟨he, -⟩
    · refine ⟨s, hm, rfl, fun hl => ⟨hl, fun hk => ?_⟩, fun hl => hl.1⟩
      rw [hold.2 rfl _ hm hk] at hl
      cases hl
    · exact absurd he hi

/-- The revisions that writes have added. -/
structure Wrote (c : RevisionColumns ρ κ) (t t' : Table ρ) (new : RevisionLog κ) : Prop where
  versioned : Versioned c t'
  log : revisionLog c t' = revisionLog c t ++ new

namespace Wrote

variable {t t' t'' : Table ρ}

theorem refl (h : Versioned c t) : Wrote c t t [] := ⟨h, (List.append_nil _).symm⟩

theorem marks {new : RevisionLog κ} (h : Wrote c t t' new) (hm : Marks c t' t'') :
    Wrote c t t'' new :=
  ⟨h.versioned.marks hm, hm.log.trans h.log⟩

end Wrote

theorem Supersedes.wrote {t t' : Table ρ} {id : Int} {r : ρ} (hs : Supersedes c t t' id r)
    (h : Versioned c t) : Wrote c t t' [⟨id, c.subject r, c.epoch r⟩] :=
  ⟨h.supersede hs, hs.log⟩

/-! ## Tables that rows are deleted from -/

/-- A live row is the last of its subject; the last one may be gone. -/
structure LiveLast (c : RevisionColumns ρ κ) (t : Table ρ) : Prop where
  increasing : Increasing (revisionLog c t)
  last : ∀ x ∈ t.rows, c.live x.2 = true →
    latest (revisionLog c t) (c.subject x.2) = some x.1

namespace LiveLast

variable {t t' : Table ρ}

theorem empty : LiveLast c Table.empty where
  increasing := List.Pairwise.nil
  last _ hx := nomatch hx

theorem liveUnique (h : LiveLast c t) : LiveUnique c t := by
  intro x hx y hy hxl hyl hk
  have hlx := h.last x hx hxl
  rw [hk, h.last y hy hyl, Option.some.injEq] at hlx
  exact hlx.symm

theorem marks (h : LiveLast c t) (hm : Marks c t t') : LiveLast c t' := by
  refine ⟨hm.log ▸ h.increasing, fun x hx hlive => ?_⟩
  obtain ⟨r, hr, hs, hl⟩ := hm.rows x hx
  rw [hm.log, hs]
  exact h.last _ hr (hl ▸ hlive)

theorem supersede {id : Int} {r : ρ} (h : LiveLast c t) (hs : Supersedes c t t' id r) :
    LiveLast c t' := by
  refine ⟨hs.increasing h.increasing, fun x hx hlive => ?_⟩
  rw [hs.log, latest_concat]
  by_cases hi : x.1 = id
  · rw [if_pos (hs.subject_new hx hi).symm, hi]
  · obtain ⟨s, hm, hsub, hold⟩ := hs.old x hx hi
    obtain ⟨hl, hk⟩ := hold.mp hlive
    rw [hsub, if_neg (Ne.symm hk)]
    exact h.last _ hm hl

/-- The last revision of a subject stays the last, as long as it is there. -/
theorem delete (h : LiveLast c t) (p : Int → ρ → Bool) : LiveLast c (t.delete p) := by
  have hsub : (revisionLog c (t.delete p)).Sublist (revisionLog c t) :=
    List.filter_sublist.map _
  refine ⟨h.increasing.sublist hsub, fun x hx hlive => ?_⟩
  have hlast := h.last x (Table.mem_delete.mp hx).1 hlive
  obtain ⟨-, hmax⟩ := (latest_eq_some h.increasing).mp hlast
  refine (latest_eq_some (h.increasing.sublist hsub)).mpr ⟨?_, ?_⟩
  · exact ⟨_, mem_revisionLog.mpr ⟨x, hx, rfl⟩, rfl, rfl⟩
  · exact fun r hr => hmax r (hsub.mem hr)

end LiveLast

end Sql
