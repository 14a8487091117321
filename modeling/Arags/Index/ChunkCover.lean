import Arags.Index.Chunker

/-!
# Arags.Index.ChunkCover

What the spans of `chunk_lines` cover. Its line numbers are of type `i32`.

* `chunkLinesI32`  — the spans with their numbers cut to 32 bits.
* `ChunkLoop`      — the rounds of the `while` loop; a derivation is a run that ends.
* `chunks_cover`   — the loop always ends, and its spans cover the file exactly unless the file has
  2 ^ 31 lines or more.
-/

namespace Arags

/-- `as i32`. An addition wraps in the same way, so `start as i32 + 1` is `asI32 (start + 1)`. -/
def asI32 (n : Int) : Int := n.bmod 4294967296

def wrapSpan (c : Int × Int × String) : Int × Int × String := (asI32 c.1, asI32 c.2.1, c.2.2)

def chunkLinesI32 (content : String) (maxLines overlap : Nat) : List (Int × Int × String) :=
  (chunkLines content maxLines overlap).map wrapSpan

/-- The lines from `start` up to `stop`, which is not among them. -/
def spanOf (lines : List String) (start stop : Nat) : Int × Int × String :=
  ((start : Int) + 1, (stop : Int), joinLines ((lines.take stop).drop start))

inductive ChunkLoop (lines : List String) (maxLines overlap : Nat) :
    Nat → List (Int × Int × String) → Prop where
  | done {start : Nat} (h : lines.length ≤ start) : ChunkLoop lines maxLines overlap start []
  /-- `if end >= lines.len() { break; }`. -/
  | last {start : Nat} (h : start < lines.length) (hend : lines.length ≤ start + maxLines) :
      ChunkLoop lines maxLines overlap start [spanOf lines start lines.length]
  | next {start : Nat} {out : List (Int × Int × String)} (h : start < lines.length)
      (hend : start + maxLines < lines.length)
      (rest : ChunkLoop lines maxLines overlap (start + maxLines - overlap) out) :
      ChunkLoop lines maxLines overlap start (spanOf lines start (start + maxLines) :: out)

/-- From line `start` on, spans of at most `maxLines` lines with their texts, on increasing lines,
with every line in one of them and `overlap` lines in common between neighbours. -/
structure ChunksCover (lines : List String) (maxLines overlap start : Nat)
    (out : List (Int × Int × String)) : Prop where
  spans : ∀ c ∈ out, ∃ s t, start ≤ s ∧ s < t ∧ t ≤ lines.length ∧ t ≤ s + maxLines ∧
    c = spanOf lines s t
  covered : ∀ i, start ≤ i → i < lines.length → ∃ c ∈ out, c.1 ≤ i + 1 ∧ (i : Int) + 1 ≤ c.2.1
  increasing : out.Pairwise fun c d => c.1 < d.1
  overlaps : out.IsChain fun c d => c.2.1 + 1 - d.1 = (overlap : Int) ∧ c.2.1 < d.2.1

section Loop

variable {lines : List String} {maxLines overlap : Nat}

/-- The fuel that `chunkLines` passes lets the loop run to its end. -/
theorem chunkFrom_loop (h : overlap < maxLines) : ∀ {fuel start : Nat},
    lines.length ≤ start + fuel →
      ChunkLoop lines maxLines overlap start (chunkFrom lines maxLines overlap fuel start) := by
  intro fuel
  induction fuel with
  | zero => exact fun hfuel => .done hfuel
  | succ fuel ih =>
    intro start hfuel
    rw [chunkFrom_succ]
    by_cases hlt : start < lines.length
    · rw [if_pos hlt]
      by_cases hend : lines.length ≤ start + maxLines
      · rw [Nat.min_eq_right hend, if_pos (Nat.le_refl _)]
        exact .last hlt hend
      · rw [Nat.not_le] at hend
        rw [Nat.min_eq_left (Nat.le_of_lt hend), if_neg (Nat.not_le.mpr hend)]
        exact .next hlt hend (ih (by omega))
    · rw [if_neg hlt]
      exact .done (Nat.not_lt.mp hlt)

/-- The first span of a run. -/
theorem ChunkLoop.head {start : Nat} {out : List (Int × Int × String)}
    (h : ChunkLoop lines maxLines overlap start out) :
    ∀ c ∈ out.head?, c.1 = start + 1 ∧ c.2.1 = (min (start + maxLines) lines.length : Nat) := by
  intro c hc
  cases h with
  | done _ => cases hc
  | last h hend =>
    obtain rfl := Option.some.inj hc
    rw [Nat.min_eq_right hend]
    exact ⟨rfl, rfl⟩
  | next h hend rest =>
    obtain rfl := Option.some.inj hc
    rw [Nat.min_eq_left (Nat.le_of_lt hend)]
    exact ⟨rfl, rfl⟩

theorem ChunkLoop.covers (h : overlap < maxLines) {start : Nat}
    {out : List (Int × Int × String)} (hloop : ChunkLoop lines maxLines overlap start out) :
    ChunksCover lines maxLines overlap start out := by
  induction hloop with
  | done hle =>
    refine ⟨by simp, fun i hi hlt => ?_, .nil, .nil⟩
    omega
  | @last start hlt hend =>
    refine ⟨?_, fun i hi hlt => ?_, List.pairwise_singleton _ _, .singleton _⟩
    · rw [List.forall_mem_singleton]
      exact ⟨start, lines.length, Nat.le_refl _, hlt, Nat.le_refl _, hend, rfl⟩
    · refine ⟨_, List.mem_singleton_self _, ?_, ?_⟩
      · exact Int.add_le_add_right (Int.ofNat_le.mpr hi) 1
      · exact Int.ofNat_le.mpr hlt
  | @next start out hlt hend rest ih =>
    have hlater : ∀ d ∈ out, ((start : Int) + 1) < d.1 := by
      intro d hd
      obtain ⟨s, t, hs, -, -, -, rfl⟩ := ih.spans d hd
      dsimp only [spanOf]
      omega
    refine ⟨?_, fun i hi hlen => ?_, ?_, ?_⟩
    · refine List.forall_mem_cons.mpr ⟨?_, fun d hd => ?_⟩
      · exact ⟨start, start + maxLines, Nat.le_refl _, by omega, Nat.le_of_lt hend, Nat.le_refl _,
          rfl⟩
      · obtain ⟨s, t, hs, hrest⟩ := ih.spans d hd
        exact ⟨s, t, by omega, hrest⟩
    · by_cases hin : i < start + maxLines
      · refine ⟨_, List.mem_cons_self, ?_, ?_⟩
        · exact Int.add_le_add_right (Int.ofNat_le.mpr hi) 1
        · exact Int.ofNat_le.mpr hin
      · obtain ⟨c, hc, hcover⟩ := ih.covered i (by omega) hlen
        exact ⟨c, List.mem_cons_of_mem _ hc, hcover⟩
    · exact List.pairwise_cons.mpr ⟨hlater, ih.increasing⟩
    · cases out with
      | nil => exact .singleton _
      | cons d out =>
        refine .cons_cons ?_ ih.overlaps
        obtain ⟨hfirst, hlast⟩ := rest.head d rfl
        rw [hfirst, hlast]
        dsimp only [spanOf]
        omega

end Loop

theorem asI32_of_lt {n : Nat} (h : n < 2147483648) : asI32 n = n := by
  unfold asI32
  rw [Int.bmod_eq_emod_of_lt] <;> omega

theorem asI32_lt (n : Int) : asI32 n < 2147483648 := by
  have h := Int.bmod_lt (x := n) (m := 4294967296) (by decide)
  exact Int.lt_of_lt_of_le h (by decide)

theorem rustLines_empty : rustLines "" = [] := rfl

/-- A last line that no number of 32 bits reaches is in no chunk. -/
theorem not_covers_of_long {content : String} {maxLines overlap start : Nat}
    (m o : Nat) (hstart : start < (rustLines content).length)
    (hlong : 2147483648 ≤ (rustLines content).length) :
    ¬ ChunksCover (rustLines content) m o start (chunkLinesI32 content maxLines overlap) := by
  intro h
  obtain ⟨c, hc, -, hlast⟩ := h.covered ((rustLines content).length - 1) (by omega) (by omega)
  obtain ⟨c', -, rfl⟩ := List.mem_map.mp hc
  have hlt : asI32 c'.2.1 < 2147483648 := asI32_lt _
  dsimp only [wrapSpan] at hlast
  omega

theorem chunkLines_loop (content : String) (maxLines overlap : Nat) :
    ChunkLoop (rustLines content) (max maxLines 1) (min overlap (max maxLines 1 - 1)) 0
      (chunkLines content maxLines overlap) := by
  unfold chunkLines
  split
  · rename_i hempty
    rw [hempty, rustLines_empty]
    exact .done (Nat.le_refl _)
  · exact chunkFrom_loop (by omega) (by omega)

/-- Below 2 ^ 31 lines no number is cut. -/
theorem chunkLinesI32_of_short {content : String} (maxLines overlap : Nat)
    (h : (rustLines content).length < 2147483648) :
    chunkLinesI32 content maxLines overlap = chunkLines content maxLines overlap := by
  have hcover := (chunkLines_loop content maxLines overlap).covers (by omega)
  unfold chunkLinesI32
  refine (List.map_congr_left fun c hc => ?_).trans (List.map_id _)
  obtain ⟨s, t, -, hst, ht, -, rfl⟩ := hcover.spans c hc
  have hs : asI32 ((s : Int) + 1) = (s : Int) + 1 := asI32_of_lt (n := s + 1) (by omega)
  have ht : asI32 (t : Int) = t := asI32_of_lt (by omega)
  dsimp only [wrapSpan, spanOf, id]
  rw [hs, ht]

/-- The loop ends on every text, and its spans cover the text exactly when it has fewer than 2 ^ 31
lines. -/
theorem chunks_cover (content : String) (maxLines overlap : Nat) :
    ChunkLoop (rustLines content) (max maxLines 1) (min overlap (max maxLines 1 - 1)) 0
        (chunkLines content maxLines overlap) ∧
      (ChunksCover (rustLines content) (max maxLines 1) (min overlap (max maxLines 1 - 1)) 0
          (chunkLinesI32 content maxLines overlap) ↔
        (rustLines content).length < 2147483648) := by
  have hloop := chunkLines_loop content maxLines overlap
  refine ⟨hloop, fun h => ?_, fun h => ?_⟩
  · by_contra hlong
    exact not_covers_of_long _ _ (by omega) (Nat.not_lt.mp hlong) h
  · rw [chunkLinesI32_of_short maxLines overlap h]
    exact hloop.covers (by omega)

theorem length_linesFrom_newlines (n : Nat) :
    (linesFrom (List.replicate n '\n') []).length = n := by
  induction n with
  | zero => rfl
  | succ n ih =>
    rw [List.replicate_succ, linesFrom, List.length_cons, ih]
    simp

/-- A file of 2 ^ 31 empty lines. -/
theorem chunks_cover_not : ¬ ∀ (content : String) (maxLines overlap : Nat), 1 ≤ maxLines →
    ChunksCover (rustLines content) maxLines (min overlap (maxLines - 1)) 0
      (chunkLinesI32 content maxLines overlap) := by
  intro h
  have hlen : (rustLines (String.ofList (List.replicate 2147483648 '\n'))).length = 2147483648 := by
    unfold rustLines
    rw [String.toList_ofList, length_linesFrom_newlines]
  refine not_covers_of_long 80 0 ?_ ?_ (h (String.ofList (List.replicate 2147483648 '\n')) 80 0 ?_)
  · rw [hlen]
    exact Nat.zero_lt_succ _
  · exact Nat.le_of_eq hlen.symm
  · exact Nat.succ_le_succ (Nat.zero_le 79)

end Arags
