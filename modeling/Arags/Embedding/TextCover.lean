import Arags.Embedding.TextPlan

/-!
# Arags.Embedding.TextCover

What the chunks of the paragraph chunker cover while it never goes back.

* `Covering`     — chunks in order, with white space between them, that cut no word.
* `TextCovered`  — slices at their offsets, in order, every word in one of them, and only words of
  the overlap in two.
* `text_covered` — such texts are covered.
-/

namespace Arags.Embedding

open Text

/-- No word goes on from `s` into `rest`. -/
def WordEnd (s rest : List Char) : Prop :=
  ∀ x ∈ s.getLast?, ∀ y ∈ rest.head?, isWhiteSpace x = true ∨ isWhiteSpace y = true

/-- The chunks of a text that starts at offset `o`, with white space between them. -/
def Covering : Nat → List Char → List RawChunk → Prop
  | _, t, [] => ∀ c ∈ t, isWhiteSpace c = true
  | o, t, c :: cs =>
    ∃ gap rest, t = gap ++ (c.content ++ rest) ∧ (∀ x ∈ gap, isWhiteSpace x = true) ∧
      c.offsetStart = o + byteLen gap ∧ c.offsetEnd = c.offsetStart + byteLen c.content ∧
        WordEnd c.content rest ∧ Covering c.offsetEnd rest cs

/-- A word of a text: a run without white space that nothing extends. -/
structure IsWord (p w q : List Char) : Prop where
  nonempty : w ≠ []
  solid : ∀ c ∈ w, isWhiteSpace c = false
  before : ∀ c ∈ p.getLast?, isWhiteSpace c = true
  after : ∀ c ∈ q.head?, isWhiteSpace c = true

/-- The chunks of `content`, neighbours of which share at most `overlapTokens` words. -/
structure TextCovered (overlapTokens : Nat) (content : List Char) (chunks : List RawChunk) :
    Prop where
  slices : ∀ c ∈ chunks, slice content c.offsetStart c.offsetEnd = some c.content
  ordered : chunks.IsChain fun c d => c.offsetStart ≤ d.offsetStart ∧ c.offsetEnd ≤ d.offsetEnd
  words : ∀ p w q, content = p ++ (w ++ q) → IsWord p w q →
    ∃ c ∈ chunks, c.offsetStart ≤ byteLen p ∧ byteLen p + byteLen w ≤ c.offsetEnd
  shared : chunks.IsChain fun c d => d.offsetStart < c.offsetEnd → overlapTokens ≠ 0 ∧
    ∃ x y, c.content = x ++ y ∧ byteLen y = c.offsetEnd - d.offsetStart ∧
      (Text.words y).length ≤ overlapTokens

section Covering

theorem Covering.prepend {o : Nat} {w t : List Char} {cs : List RawChunk}
    (hw : ∀ c ∈ w, isWhiteSpace c = true) (h : Covering (o + byteLen w) t cs) :
    Covering o (w ++ t) cs := by
  cases cs with
  | nil =>
    intro c hc
    rcases List.mem_append.mp hc with hc | hc
    · exact hw c hc
    · exact h c hc
  | cons c cs =>
    obtain ⟨gap, rest, rfl, hgap, hstart, hend, hword, hrest⟩ := h
    refine ⟨w ++ gap, rest, (List.append_assoc _ _ _).symm, fun x hx => ?_, ?_, hend, hword,
      hrest⟩
    · rcases List.mem_append.mp hx with hx | hx
      · exact hw x hx
      · exact hgap x hx
    · rw [hstart, byteLen_append, Nat.add_assoc]

/-- Text that starts with white space can follow. -/
theorem Covering.append {o : Nat} {s t : List Char} {cs ds : List RawChunk}
    (hs : Covering o s cs) (ht : Covering (o + byteLen s) t ds)
    (hspace : ∀ c ∈ t.head?, isWhiteSpace c = true) : Covering o (s ++ t) (cs ++ ds) := by
  induction cs generalizing o s with
  | nil => exact ht.prepend hs
  | cons c cs ih =>
    obtain ⟨gap, rest, rfl, hgap, hstart, hend, hword, hrest⟩ := hs
    refine ⟨gap, rest ++ t, by simp only [List.append_assoc], hgap, hstart, hend, ?_,
      ih hrest ?_⟩
    · intro x hx y hy
      cases rest with
      | nil => exact .inr (hspace y hy)
      | cons z rest => exact hword x hx y hy
    · rw [byteLen_append, byteLen_append, ← Nat.add_assoc, ← Nat.add_assoc, ← hstart, ← hend] at ht
      exact ht

theorem Covering.slices {p t q : List Char} {cs : List RawChunk} (h : Covering (byteLen p) t cs) :
    ∀ c ∈ cs, slice (p ++ (t ++ q)) c.offsetStart c.offsetEnd = some c.content := by
  induction cs generalizing p t with
  | nil => simp
  | cons c cs ih =>
    obtain ⟨gap, rest, rfl, -, hstart, hend, -, hrest⟩ := h
    refine List.forall_mem_cons.mpr ⟨?_, fun d hd => ?_⟩
    · exact slice_mid (p := p ++ gap) (q := rest ++ q) (by simp only [List.append_assoc])
        (by rw [byteLen_append, hstart]) hend.symm
    · have hlen : c.offsetEnd = byteLen (p ++ (gap ++ c.content)) := by
        simp only [byteLen_append, hend, hstart, Nat.add_assoc]
      rw [hlen] at hrest
      have := ih hrest d hd
      simpa only [List.append_assoc] using this

theorem Covering.disjoint {o : Nat} {t : List Char} {cs : List RawChunk} (h : Covering o t cs) :
    cs.IsChain (fun c d => c.offsetStart ≤ c.offsetEnd ∧ c.offsetEnd ≤ d.offsetStart ∧
        d.offsetStart ≤ d.offsetEnd) ∧
      ∀ c ∈ cs, o ≤ c.offsetStart ∧ c.offsetStart ≤ c.offsetEnd := by
  induction cs generalizing o t with
  | nil => exact ⟨.nil, by simp⟩
  | cons c cs ih =>
    obtain ⟨gap, rest, rfl, -, hstart, hend, -, hrest⟩ := h
    obtain ⟨hchain, hall⟩ := ih hrest
    refine ⟨List.isChain_cons.mpr ⟨fun d hd => ?_, hchain⟩, List.forall_mem_cons.mpr
      ⟨by omega, fun d hd => ?_⟩⟩
    · have := hall d (List.mem_of_mem_head? hd)
      omega
    · have := hall d hd
      omega

theorem Covering.covers {o : Nat} {t : List Char} {cs : List RawChunk} (h : Covering o t cs)
    {p w q : List Char} (ht : t = p ++ (w ++ q)) (hw : IsWord p w q) :
    ∃ c ∈ cs, c.offsetStart ≤ o + byteLen p ∧ o + byteLen p + byteLen w ≤ c.offsetEnd := by
  induction cs generalizing o t p with
  | nil =>
    obtain ⟨c, w, rfl⟩ := List.exists_cons_of_ne_nil hw.nonempty
    have := h c (by rw [ht]; simp)
    rw [hw.solid c List.mem_cons_self] at this
    cases this
  | cons c cs ih =>
    obtain ⟨gap, rest, rfl, hgap, hstart, hend, hword, hrest⟩ := h
    -- the word starts after the gap
    obtain ⟨p', rfl, hp'⟩ : ∃ p', p = gap ++ p' ∧ p' ++ (w ++ q) = c.content ++ rest := by
      obtain ⟨m, hm, hrest'⟩ | ⟨m, hm, hrest'⟩ := List.append_eq_append_iff.mp ht
      · exact ⟨m, hm, hrest'.symm⟩
      · cases m with
        | nil => exact ⟨[], by simpa using hm.symm, by simpa using hrest'⟩
        | cons x m =>
          obtain ⟨y, w', hw'⟩ := List.exists_cons_of_ne_nil hw.nonempty
          rw [hw'] at hrest'
          obtain ⟨rfl, -⟩ := List.cons.inj hrest'
          have hx := hgap y (by rw [hm]; simp)
          rw [hw.solid y (by rw [hw']; exact List.mem_cons_self)] at hx
          cases hx
    have hlater {m : List Char} (hm : p' = c.content ++ m) (hmrest : rest = m ++ (w ++ q)) :
        ∃ d ∈ c :: cs, d.offsetStart ≤ o + byteLen (gap ++ p') ∧
          o + byteLen (gap ++ p') + byteLen w ≤ d.offsetEnd := by
      have hbefore : ∀ x ∈ m.getLast?, isWhiteSpace x = true := by
        intro x hx
        refine hw.before x ?_
        rw [hm, List.getLast?_append, List.getLast?_append, Option.mem_def.mp hx]
        rfl
      obtain ⟨d, hd, hle, hge⟩ := ih hrest hmrest ⟨hw.nonempty, hw.solid, hbefore, hw.after⟩
      have hlen : o + byteLen (gap ++ p') = c.offsetEnd + byteLen m := by
        rw [hm, hend, hstart]
        simp only [byteLen_append, Nat.add_assoc]
      rw [hlen]
      exact ⟨d, List.mem_cons_of_mem _ hd, hle, hge⟩
    obtain ⟨m, hm, hrest'⟩ | ⟨m, hm, hrest'⟩ := List.append_eq_append_iff.mp hp'
    · have hin {m' : List Char} (hm' : m = w ++ m') : ∃ d ∈ c :: cs,
          d.offsetStart ≤ o + byteLen (gap ++ p') ∧
            o + byteLen (gap ++ p') + byteLen w ≤ d.offsetEnd := by
        refine ⟨c, List.mem_cons_self, ?_, ?_⟩
        · rw [hstart, byteLen_append]
          omega
        · rw [hend, hstart, hm, hm']
          simp only [byteLen_append]
          omega
      obtain ⟨m', hm', -⟩ | ⟨m', hm', hq⟩ := List.append_eq_append_iff.mp hrest'
      · exact hin hm'
      · cases m' with
        | nil => exact @hin [] (by rw [hm', List.append_nil, List.append_nil])
        | cons y m' =>
          rcases List.eq_nil_or_concat m with rfl | ⟨m, x, rfl⟩
          · exact hlater (m := []) (by rw [hm]; simp) (by rw [hq, hm']; rfl)
          · -- the chunk would cut the word
            have hx : x ∈ c.content.getLast? := by
              rw [hm, List.concat_eq_append, ← List.append_assoc, List.getLast?_concat]
              rfl
            rcases hword x hx y (by rw [hq]; rfl) with hws | hws
            · rw [hw.solid x (by rw [hm']; simp)] at hws
              cases hws
            · rw [hw.solid y (by rw [hm']; simp)] at hws
              cases hws
    · exact hlater hm hrest'

theorem Covering.covered {content : List Char} {cs : List RawChunk} (overlapTokens : Nat)
    (h : Covering 0 content cs) : TextCovered overlapTokens content cs where
  slices := by
    have := Covering.slices (p := []) (q := []) h
    rwa [List.append_nil, List.nil_append] at this
  ordered := h.disjoint.1.imp fun c d hcd => by omega
  words := fun p w q ht hw => by
    have := h.covers ht hw
    rwa [Nat.zero_add] at this
  shared := h.disjoint.1.imp fun c d hcd hlt => absurd hlt (by omega)

end Covering

/-! ## Texts of chunks -/

/-- Texts that follow each other and cut no word. -/
def CleanCuts : List (List Char) → Prop
  | [] => True
  | t :: ts => WordEnd t ts.flatten ∧ CleanCuts ts

theorem place_covering {o : Nat} {ts : List (List Char)} (h : CleanCuts ts) :
    Covering o ts.flatten (place o ts) := by
  induction ts generalizing o with
  | nil => exact fun c hc => (by cases hc)
  | cons t ts ih => exact ⟨[], ts.flatten, rfl, by simp, rfl, rfl, h.1, ih h.2⟩

theorem cleanCuts_append {ts us : List (List Char)} (hts : CleanCuts (ts ++ [us.flatten]))
    (hus : CleanCuts us) : CleanCuts (ts ++ us) := by
  induction ts with
  | nil => exact hus
  | cons t ts ih =>
    have hend : WordEnd t (ts ++ [us.flatten]).flatten := hts.1
    rw [List.flatten_append, List.flatten_singleton, ← List.flatten_append] at hend
    exact ⟨hend, ih hts.2⟩

theorem isWhiteSpace_of_ascii {c : Char} (h : isAsciiWhitespace c = true) :
    isWhiteSpace c = true := by
  simp only [isAsciiWhitespace, Bool.or_eq_true, beq_iff_eq] at h
  rcases h with (((rfl | rfl) | rfl) | rfl) | rfl <;> rfl

theorem greedyGroups_cleanCuts (estimateTokens : List Char → Nat) (maxTokens : Nat)
    {s t : List Char} {pieces : List (List Char)} (h : AsciiWords s pieces t) :
    ∀ {group : List Char}, (group = [] ∨ ∀ c ∈ s.head?, isAsciiWhitespace c = true) →
      CleanCuts ((greedyGroups estimateTokens maxTokens group pieces).1 ++
        [(greedyGroups estimateTokens maxTokens group pieces).2 ++ t]) := by
  induction h with
  | done hg => exact fun _ => ⟨fun x _ y hy => (by cases hy), trivial⟩
  | @word g w s t pieces hg hw hword hnext rest ih =>
    intro group hgroup
    rw [greedyGroups]
    split
    · have hrest := @ih (g ++ w) (.inr hnext)
      dsimp only
      split
      · exact hrest
      · rename_i hne
        refine ⟨fun x _ y hy => .inr ?_, hrest⟩
        refine isWhiteSpace_of_ascii (hgroup.resolve_left (by simpa using hne) y ?_)
        have hflat := flatten_greedyGroups estimateTokens maxTokens (g ++ w) pieces
        change y ∈ (_ ++ [_]).flatten.head? at hy
        rwa [List.flatten_append, List.flatten_singleton, ← List.append_assoc, hflat,
          List.append_assoc, ← rest.flatten] at hy
    · exact ih (.inr hnext)

section Texts

variable {estimateTokens : List Char → Nat} {maxTokens : Nat}

theorem wordGroupTexts_cleanCuts (hpos : PositiveEstimate estimateTokens) {s : List Char}
    {ts : List (List Char)} (h : wordGroupTexts estimateTokens maxTokens s = some ts) :
    ts.flatten = s ∧ CleanCuts ts := by
  have hall := @groups_append_lastGroup estimateTokens maxTokens s
  have hclean := greedyGroups_cleanCuts estimateTokens maxTokens (piecesOf_words s) (.inl rfl)
  rw [wordGroupTexts] at h
  change CleanCuts (_ ++ [lastGroup estimateTokens maxTokens s]) at hclean
  generalize (greedyGroups estimateTokens maxTokens [] (piecesOf s).1).1 = groups at h hall hclean
  generalize lastGroup estimateTokens maxTokens s = tail at h hall hclean
  split at h
  · rename_i hlong
    obtain ⟨fit, hfit, rfl⟩ := Option.map_eq_some_iff.mp h
    obtain ⟨r, rfl, hne, -, hlast⟩ := fitText_some hfit hlong.1
    rw [List.drop_left]
    by_cases hr : r = []
    · subst hr
      rw [if_neg (by simp)]
      rw [List.append_nil] at hall hclean
      refine ⟨?_, hclean⟩
      rw [List.flatten_append, List.flatten_singleton, hall]
    · rw [if_pos ⟨hr, hpos r hr⟩]
      refine ⟨?_, @cleanCuts_append groups [fit, r] ?_
        ⟨?_, fun x _ y hy => (by cases hy), trivial⟩⟩
      · rw [← hall, List.flatten_append]
        simp
      · simpa using hclean
      · obtain ⟨a, c, rfl, hc⟩ := hlast.resolve_left hr
        intro x hx y _
        rw [List.getLast?_concat] at hx
        exact .inl (Option.some.inj hx ▸ hc)
  · rename_i hnone
    obtain rfl := Option.some.inj h
    have htail : tail = [] := by
      by_contra hne
      exact hnone ⟨hne, hpos tail hne⟩
    subst htail
    rw [List.append_nil] at hall
    refine ⟨hall, ?_⟩
    have := @cleanCuts_append groups [] (by simpa using hclean) trivial
    rwa [List.append_nil] at this

theorem sliceTexts_cleanCuts (hpos : PositiveEstimate estimateTokens) {s : List Char}
    {ts : List (List Char)} (h : sliceTexts estimateTokens maxTokens s = some ts) :
    ts.flatten = s ∧ CleanCuts ts := by
  rw [sliceTexts] at h
  split at h
  · rename_i hs
    obtain rfl := Option.some.inj h
    exact ⟨hs.symm, trivial⟩
  · rename_i hs
    split at h
    · exact wordGroupTexts_cleanCuts hpos h
    · obtain rfl := Option.some.inj h
      have := hpos s hs
      rw [if_neg (by omega)]
      exact ⟨List.flatten_singleton, fun x _ y hy => (by cases hy), trivial⟩

/-- What the last push leaves out at the end of its part. -/
theorem drop_of_separator {content s : List Char}
    (hsep : paragraphSeparator.isSuffixOf content = true) (hs : s <:+ content) :
    ∀ c ∈ s.drop (s.length - 2), isWhiteSpace c = true := by
  have hdrop : s.drop (s.length - 2) <:+ paragraphSeparator := by
    refine List.suffix_of_suffix_length_le ((List.drop_suffix _ s).trans hs)
      (List.isSuffixOf_iff_suffix.mp hsep) ?_
    rw [List.length_drop]
    show _ ≤ 2
    omega
  intro c hc
  have := hdrop.subset hc
  rw [List.eq_of_mem_replicate (n := 2) (a := '\n') this]
  rfl

theorem Part.texts_covering (hpos : PositiveEstimate estimateTokens) {content : List Char}
    {q : Part} (hq : q.kind = .last → q.text <:+ content) {o : Nat} {ts : List (List Char)}
    (h : q.texts estimateTokens maxTokens content = some ts) :
    Covering o q.text (place o ts) := by
  obtain ⟨kind, text⟩ := q
  have hwhole (hts : ts.flatten = text ∧ CleanCuts ts) : Covering o text (place o ts) := by
    rw [← hts.1]
    exact place_covering hts.2
  cases kind with
  | group => exact hwhole (sliceTexts_cleanCuts hpos h)
  | flushed => exact hwhole (sliceTexts_cleanCuts hpos h)
  | paragraph => exact hwhole (wordGroupTexts_cleanCuts hpos h)
  | last =>
    change (if EndsWhole content then _ else none) = some ts at h
    split at h
    · obtain ⟨hflat, hclean⟩ := sliceTexts_cleanCuts hpos h
      rw [Part.pushed] at hflat
      split at hflat
      · rename_i hsep
        have hdrop := drop_of_separator hsep.2 (hq rfl)
        have hcover := (place_covering (o := o) hclean)
        rw [hflat] at hcover
        have := @Covering.append o _ (text.drop (text.length - 2)) _ [] hcover hdrop
          fun c hc => hdrop c (List.mem_of_mem_head? hc)
        rwa [List.take_append_drop, List.append_nil] at this
      · exact hwhole ⟨hflat, hclean⟩
    · cases h

/-- The text of some parts, with a separator between them. -/
def joined : List Part → List Char
  | [] => []
  | [q] => q.text
  | q :: ps => q.text ++ (paragraphSeparator ++ joined ps)

theorem textThrough_joined {ps : List Part} (h : ps ≠ []) :
    textThrough ps = joined ps ++ paragraphSeparator := by
  induction ps with
  | nil => exact absurd rfl h
  | cons q ps ih =>
    cases ps with
    | nil => exact List.append_nil _
    | cons q' ps =>
      show q.text ++ paragraphSeparator ++ textThrough (q' :: ps) =
        q.text ++ (paragraphSeparator ++ joined (q' :: ps)) ++ paragraphSeparator
      rw [ih (List.cons_ne_nil _ _)]
      simp only [List.append_assoc]

theorem suffix_joined (before : List Part) (q : Part) : q.text <:+ joined (before ++ [q]) := by
  induction before with
  | nil => exact List.suffix_rfl
  | cons p before ih =>
    rw [List.cons_append, joined]
    · exact (ih.trans (List.suffix_append _ _)).trans (List.suffix_append _ _)
    · simp

theorem placeParts_covering (hpos : PositiveEstimate estimateTokens) {content : List Char}
    {ps : List Part} (hps : ∀ q ∈ ps, q.kind = .last → q.text <:+ content) :
    ∀ {o : Nat} {chunks : List RawChunk},
      placeParts estimateTokens maxTokens content o ps = some chunks →
        Covering o (joined ps) chunks := by
  induction ps with
  | nil =>
    intro o chunks h
    obtain rfl := Option.some.inj h
    exact fun c hc => (by cases hc)
  | cons q ps ih =>
    intro o chunks h
    obtain ⟨hq, hrest⟩ := List.forall_mem_cons.mp hps
    rw [placeParts] at h
    obtain ⟨ts, hts, h⟩ := Option.bind_eq_some_iff.mp h
    obtain ⟨rest, hplaced, h⟩ := Option.bind_eq_some_iff.mp h
    obtain rfl := Option.some.inj h
    have hcover := @Part.texts_covering _ _ hpos content q hq o ts hts
    cases ps with
    | nil =>
      obtain rfl := Option.some.inj hplaced
      rwa [List.append_nil]
    | cons q' ps =>
      have hsep : ∀ c ∈ paragraphSeparator, isWhiteSpace c = true :=
        List.all_eq_true.mp (by decide)
      have hlater := (ih hrest hplaced).prepend (w := paragraphSeparator)
        (o := o + byteLen q.text) hsep
      exact hcover.append hlater fun c hc => hsep c (List.mem_of_mem_head? hc)

theorem textThrough_parts (overlapTokens : Nat) (group : Option (List Char)) (tokens : Nat)
    (paras : List (List Char)) :
    textThrough (parts estimateTokens maxTokens overlapTokens group tokens paras) =
      openText group ++ paras.flatMap (· ++ paragraphSeparator) := by
  have hcons (q : Part) (ps : List Part) :
      textThrough (q :: ps) = q.text ++ (paragraphSeparator ++ textThrough ps) := by
    rw [textThrough, List.flatMap_cons, List.append_assoc]
    rfl
  fun_induction parts estimateTokens maxTokens overlapTokens group tokens paras with
  | case1 => rfl
  | case2 _ g => rw [hcons]; simp [openText, textThrough]
  | case3 _ para paras hover ih =>
    rw [hcons, ih]
    simp [openText]
  | case4 _ para paras hover ih =>
    rw [ih]
    simp [openText]
  | case5 g _ para paras hover ih =>
    rw [hcons, hcons, ih]
    simp [openText]
  | case6 g _ para paras hover hflush ih =>
    rw [hcons, ih]
    simp [openText]
  | case7 g _ para paras hover hflush ih =>
    rw [ih]
    simp [openText]

theorem last_of_mem_parts (overlapTokens : Nat) (group : Option (List Char)) (tokens : Nat)
    (paras : List (List Char)) :
    ∀ q ∈ parts estimateTokens maxTokens overlapTokens group tokens paras, q.kind = .last →
      ∃ before, parts estimateTokens maxTokens overlapTokens group tokens paras =
        before ++ [q] := by
  fun_induction parts estimateTokens maxTokens overlapTokens group tokens paras with
  | case1 => simp
  | case2 _ g =>
    intro q hq _
    exact ⟨[], by rw [List.mem_singleton.mp hq]; rfl⟩
  | case3 _ para paras hover ih =>
    refine List.forall_mem_cons.mpr ⟨fun h => (by cases h), fun q hq hkind => ?_⟩
    obtain ⟨before, hbefore⟩ := ih q hq hkind
    exact ⟨⟨.paragraph, para⟩ :: before, by rw [hbefore]; rfl⟩
  | case4 _ para paras hover ih => exact ih
  | case5 g _ para paras hover ih =>
    refine List.forall_mem_cons.mpr ⟨fun h => (by cases h), List.forall_mem_cons.mpr
      ⟨fun h => (by cases h), fun q hq hkind => ?_⟩⟩
    obtain ⟨before, hbefore⟩ := ih q hq hkind
    exact ⟨⟨.group, g⟩ :: ⟨.paragraph, para⟩ :: before, by rw [hbefore]; rfl⟩
  | case6 g _ para paras hover hflush ih =>
    refine List.forall_mem_cons.mpr ⟨fun h => (by cases h), fun q hq hkind => ?_⟩
    obtain ⟨before, hbefore⟩ := ih q hq hkind
    exact ⟨⟨.flushed, g⟩ :: before, by rw [hbefore]; rfl⟩
  | case7 g _ para paras hover hflush ih => exact ih

/-- While no flush goes back, the chunks cover the text: slices in order that share nothing, with
every word in one of them. -/
theorem text_covered (estimateTokens : List Char → Nat) (hpos : PositiveEstimate estimateTokens)
    (content : List Char) (maxTokens overlapTokens : Nat)
    (h : NoRewind overlapTokens (partsOf estimateTokens maxTokens overlapTokens content))
    (chunks : List RawChunk)
    (hchunks : (TextChunker.mk maxTokens overlapTokens).chunk estimateTokens content =
      some chunks) : TextCovered overlapTokens content chunks := by
  rw [textChunk_eq h] at hchunks
  have hthrough := @textThrough_parts estimateTokens maxTokens overlapTokens none 0
    (split paragraphSeparator content)
  change textThrough (partsOf estimateTokens maxTokens overlapTokens content) = _ at hthrough
  rw [openText, List.nil_append, ← split_flatMap] at hthrough
  have hne : partsOf estimateTokens maxTokens overlapTokens content ≠ [] := by
    intro hnil
    rw [hnil] at hthrough
    have := congrArg List.length hthrough
    simp [textThrough, paragraphSeparator] at this
  have hcontent : joined (partsOf estimateTokens maxTokens overlapTokens content) = content := by
    rw [textThrough_joined hne] at hthrough
    exact List.append_cancel_right hthrough
  have hcover := placeParts_covering hpos (fun q hq hkind => ?_) hchunks
  · rw [hcontent] at hcover
    exact hcover.covered overlapTokens
  · obtain ⟨before, hbefore⟩ := last_of_mem_parts overlapTokens none 0
      (split paragraphSeparator content) q hq hkind
    change partsOf estimateTokens maxTokens overlapTokens content = _ at hbefore
    have := suffix_joined before q
    rwa [← hbefore, hcontent] at this

end Texts

/-- With an overlap of one word the starts go from 6 back to 5. -/
theorem text_covered_not :
    ((TextChunker.mk 8 1).chunk List.length "one two\n\nthree\n\nfour\n\nfive".toList).map
        (·.map fun c => (c.offsetStart, c.offsetEnd)) =
      some [(0, 7), (6, 13), (6, 12), (5, 7), (7, 14), (14, 20), (20, 26)] ∧
    ¬ ∀ (estimateTokens : List Char → Nat), PositiveEstimate estimateTokens →
      ∀ (content : List Char) (maxTokens overlapTokens : Nat), 1 ≤ maxTokens → ∀ chunks,
        (TextChunker.mk maxTokens overlapTokens).chunk estimateTokens content = some chunks →
          TextCovered overlapTokens content chunks := by
  have hrun : ((TextChunker.mk 8 1).chunk List.length
      "one two\n\nthree\n\nfour\n\nfive".toList).map
        (·.map fun c => (c.offsetStart, c.offsetEnd)) =
      some [(0, 7), (6, 13), (6, 12), (5, 7), (7, 14), (14, 20), (20, 26)] := by decide
  refine ⟨hrun, fun h => ?_⟩
  obtain ⟨chunks, hchunks, hoffsets⟩ := Option.map_eq_some_iff.mp hrun
  have hordered := (h List.length (fun _ hne => List.length_pos_iff.mpr hne) _ 8 1 (by decide)
    chunks hchunks).ordered
  have hpairs := (List.isChain_map (R := fun a b : Nat × Nat => a.1 ≤ b.1 ∧ a.2 ≤ b.2)
    fun c : RawChunk => (c.offsetStart, c.offsetEnd)).mpr hordered
  rw [hoffsets] at hpairs
  revert hpairs
  decide

theorem text_covered_no_overlap : ∃ chunks,
    (TextChunker.mk 8 0).chunk List.length "one two\n\nthree".toList = some chunks ∧
      TextCovered 0 "one two\n\nthree".toList chunks := by
  have hsome : ((TextChunker.mk 8 0).chunk List.length "one two\n\nthree".toList).isSome =
      true := by decide
  obtain ⟨chunks, hchunks⟩ := Option.isSome_iff_exists.mp hsome
  exact ⟨chunks, hchunks, text_covered List.length (fun _ hne => List.length_pos_iff.mpr hne) _ 8 0
    (.inl rfl) chunks hchunks⟩

end Arags.Embedding
