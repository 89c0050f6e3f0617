/-
Scans over the texts of a changelog.

Numbers are padded so that texts are in the order of the numbers. So a scan between two sequences
reads the entries between them and no others, in the order in which they were committed, and each
text is taken apart into the numbers that it was made of (`xlog_scan_exact`). What is read off the
texts is then the delta of the model (`xlog_delta_of_texts`).
-/

import ContextMemory.Hydra.XlogText
import ContextMemory.Guarantees.Cell

namespace ContextMemory.Topology

open SortedMap (get Sorted)

/-- The edge type is a component, and the numbers have eight bytes. -/
def XlogKey.WellFormed (k : XlogKey) : Prop :=
  Lease.isComponent k.edgeType = true ∧ k.sequence ≤ u64Max ∧ k.src ≤ u64Max ∧ k.dst ≤ u64Max

instance XlogKey.instDecidableWellFormed (k : XlogKey) : Decidable k.WellFormed :=
  inferInstanceAs (Decidable (_ ∧ _))

variable {cellId edgeType : String} {k k' : XlogKey} {n n' first upper : Nat}

/-! ### Numbers -/

theorem lt_of_le_u64Max (h : n ≤ u64Max) : n < 10 ^ 20 := by
  rw [u64Max] at h
  omega

/-- A number of eight bytes has twenty digits when it is padded. So texts
compare as their numbers do. -/
theorem length_padded_u64 (h : n ≤ u64Max) : (Decimal.padded 20 n).length = 20 :=
  Decimal.length_padded (by decide) (lt_of_le_u64Max h)

/-- No padded number holds a slash, which is what separates them. -/
theorem slash_not_mem_padded : '/' ∉ Decimal.padded 20 n := by
  intro h
  exact absurd (Decimal.isDigit_of_mem_padded h) (by decide)

/-- Texts that begin with numbers are compared by the numbers first. -/
theorem padded_append_lt_iff (h : n ≤ u64Max) (h' : n' ≤ u64Max) (rest rest' : List Char) :
    Decimal.padded 20 n ++ rest < Decimal.padded 20 n' ++ rest' ↔
      n < n' ∨ n = n' ∧ rest < rest' := by
  have hlt := Decimal.padded_lt_padded (lt_of_le_u64Max h) (lt_of_le_u64Max h')
  rw [Decimal.append_lt_append_iff ((length_padded_u64 h).trans (length_padded_u64 h').symm), hlt,
    Decimal.padded_inj]

/-- The bounds of a scan are bounds on the sequence. -/
theorem numbers_lt_padded_iff (h : k.sequence ≤ u64Max) (hn : n ≤ u64Max) :
    k.numbers < Decimal.padded 20 n ↔ k.sequence < n := by
  have hcompare := padded_append_lt_iff h hn
    ('/' :: (Decimal.padded 20 k.src ++ '/' :: Decimal.padded 20 k.dst)) []
  rw [List.append_nil] at hcompare
  rw [XlogKey.numbers, hcompare]
  simp

/-! ### Order -/

/-- The numbers of keys are compared one after the other. -/
theorem numbers_lt_iff (h : k.WellFormed) (h' : k'.WellFormed) :
    k.numbers < k'.numbers ↔ k.sequence < k'.sequence ∨ k.sequence = k'.sequence ∧
      (k.src < k'.src ∨ k.src = k'.src ∧ k.dst < k'.dst) := by
  obtain ⟨-, hsequence, hsrc, hdst⟩ := h
  obtain ⟨-, hsequence', hsrc', hdst'⟩ := h'
  have hlast : Decimal.padded 20 k.dst < Decimal.padded 20 k'.dst ↔ k.dst < k'.dst :=
    Decimal.padded_lt_padded (lt_of_le_u64Max hdst) (lt_of_le_u64Max hdst')
  rw [XlogKey.numbers, XlogKey.numbers, padded_append_lt_iff hsequence hsequence',
    List.cons_lt_cons_iff, padded_append_lt_iff hsrc hsrc', List.cons_lt_cons_iff, hlast]
  simp only [lt_irrefl, false_or, true_and]

/-- Keys of one edge type are in the order of their sequences, then of their
sources, then of their destinations. -/
theorem XlogKey.lt_iff (htype : k.edgeType = k'.edgeType) :
    k < k' ↔ k.sequence < k'.sequence ∨ k.sequence = k'.sequence ∧
      (k.src < k'.src ∨ k.src = k'.src ∧ k.dst < k'.dst) := by
  change k.tuple < k'.tuple ↔ _
  simp [XlogKey.tuple, Prod.Lex.lt_iff, htype]

/-- Of one edge type, the texts are in the order of the keys. -/
theorem xlogEntry_lt_iff (h : k.WellFormed) (h' : k'.WellFormed)
    (htype : k.edgeType = k'.edgeType) : xlogEntry cellId k < xlogEntry cellId k' ↔ k < k' := by
  rw [xlogEntry, xlogEntry, htype, Decimal.append_lt_append_iff rfl, numbers_lt_iff h h',
    XlogKey.lt_iff htype]
  simp only [lt_irrefl, false_or, true_and]

/-! ### Prefixes -/

/-- Nor does an edge type, since it is a component of a path. -/
theorem slash_not_mem_of_isComponent (h : Lease.isComponent edgeType = true) :
    '/' ∉ edgeType.toList := by
  intro hmem
  rw [Lease.isComponent, Bool.and_eq_true, List.all_eq_true] at h
  exact absurd (h.2 '/' hmem) (by decide)

/-- What stands before the first separator is determined. -/
theorem append_slash_prefix_iff {front front' rest : List Char} (h : '/' ∉ front)
    (h' : '/' ∉ front') : front ++ ['/'] <+: front' ++ '/' :: rest ↔ front = front' := by
  induction front generalizing front' with
  | nil =>
      cases front' with
      | nil => simp
      | cons c front' =>
          have hc : '/' ≠ c := fun heq => h' (heq ▸ List.mem_cons_self)
          simp [hc]
  | cons c front ih =>
      cases front' with
      | nil =>
          have hc : c ≠ '/' := fun heq => h (heq ▸ List.mem_cons_self)
          simp [hc]
      | cons c' front' =>
          rw [List.cons_append, List.cons_append, List.cons_prefix_cons,
            ih (fun hmem => h (List.mem_cons_of_mem _ hmem))
              (fun hmem => h' (List.mem_cons_of_mem _ hmem)), List.cons.injEq]

/-- A key begins with the prefix of its type, and with no other. -/
theorem isPrefixOf_xlogEntry (h : k.WellFormed) (htype : Lease.isComponent edgeType = true) :
    (xlogTypePrefix cellId edgeType).isPrefixOf (xlogEntry cellId k) = true ↔
      k.edgeType = edgeType := by
  have hcell : xlogEntry cellId k = "cell/".toList ++ cellId.toList ++ "/xlog/".toList ++
      (k.edgeType.toList ++ '/' :: k.numbers) := by
    simp only [xlogEntry, xlogTypePrefix, List.append_assoc, List.singleton_append]
  rw [List.isPrefixOf_iff_prefix, hcell, xlogTypePrefix, List.prefix_append_right_inj,
    append_slash_prefix_iff (slash_not_mem_of_isComponent htype) (slash_not_mem_of_isComponent h.1)]
  constructor
  · exact fun heq => (String.ext heq).symm
  · exact fun heq => congrArg String.toList heq.symm

/-- A text of the edge type is its prefix and the three numbers. -/
theorem drop_xlogEntry (htype : k.edgeType = edgeType) :
    (xlogEntry cellId k).drop (xlogTypePrefix cellId edgeType).length = k.numbers := by
  rw [← htype]
  exact List.drop_left

/-- A text is in the range of a scan exactly if its key is. Both ends of the
range are texts too, and the comparison goes through their common prefix. -/
theorem inScan_xlogEntry (h : k.WellFormed) (htype : Lease.isComponent edgeType = true)
    (hfirst : first ≤ u64Max) (hupper : upper ≤ u64Max) :
    inScan (xlogTypePrefix cellId edgeType) first upper (xlogEntry cellId k) = true ↔
      k.edgeType = edgeType ∧ first ≤ k.sequence ∧ k.sequence < upper := by
  rw [inScan, Bool.and_eq_true, isPrefixOf_xlogEntry h htype, Bool.and_eq_true, Bool.not_eq_true',
    decide_eq_false_iff_not, decide_eq_true_iff]
  refine and_congr_right fun hsame => ?_
  rw [drop_xlogEntry hsame, numbers_lt_padded_iff h.2.1 hfirst, numbers_lt_padded_iff h.2.1 hupper,
    not_lt]

/-! ### Reading back -/

/-- The three numbers are read off the text at its slashes. -/
theorem splitOn_numbers (k : XlogKey) : k.numbers.splitOn '/' =
    [Decimal.padded 20 k.sequence, Decimal.padded 20 k.src, Decimal.padded 20 k.dst] := by
  rw [XlogKey.numbers, List.splitOn_append_cons_self_of_not_mem slash_not_mem_padded,
    List.splitOn_append_cons_self_of_not_mem slash_not_mem_padded,
    List.splitOn_eq_singleton slash_not_mem_padded]

theorem numberAt_padded (h : n ≤ u64Max) (key : List Char) (name : String) :
    numberAt key name (some (Decimal.padded 20 n)) = .ok n := by
  rw [numberAt, Decimal.read_padded h]

/-- The text of a well-formed key is parsed as its numbers. -/
theorem parse_xlogEntry (h : k.WellFormed) :
    parseXlogEntryKey (xlogTypePrefix cellId k.edgeType) (xlogEntry cellId k) =
      .ok (k.sequence, k.src, k.dst) := by
  rw [parseXlogEntryKey, if_pos ((isPrefixOf_xlogEntry h h.1).mpr rfl), drop_xlogEntry rfl,
    splitOn_numbers]
  simp only [List.getElem?_cons_zero, List.getElem?_cons_succ]
  rw [numberAt_padded h.2.1, Fallible.ok_bind, numberAt_padded h.2.2.1, Fallible.ok_bind,
    numberAt_padded h.2.2.2, Fallible.ok_bind]
  rfl

/-! ### Scans -/

/-- What a range holds is of its edge type, and well formed like all of the
changelog. -/
theorem mem_xlogRange (s : Store) (hkeys : ∀ entry ∈ s.xlog, entry.1.WellFormed) :
    ∀ entry ∈ s.xlogRange edgeType first upper, entry.1.edgeType = edgeType ∧ entry.1.WellFormed := by
  intro entry hentry
  obtain ⟨hmem, hsame⟩ := List.mem_filter.mp hentry
  exact ⟨(of_decide_eq_true hsame).1, hkeys entry hmem⟩

/-- The texts that a scan reads are those of the range of keys. One filter is
turned into the other, entry by entry. -/
theorem filter_inScan (s : Store) (hfirst : first ≤ u64Max) (hupper : upper ≤ u64Max)
    (hkeys : ∀ entry ∈ s.xlog, entry.1.WellFormed) (htype : Lease.isComponent edgeType = true) :
    (s.xlog.filter fun entry => inScan (xlogTypePrefix cellId edgeType) first upper
      (xlogEntry cellId entry.1)) = s.xlogRange edgeType first upper := by
  refine List.filter_congr fun entry hentry => ?_
  rw [Bool.eq_iff_iff, inScan_xlogEntry (hkeys entry hentry) htype hfirst hupper, decide_eq_true_iff]

/-- The texts of a range are in order, as its keys are. -/
theorem pairwise_xlogRange (s : Store) (hsorted : Sorted s.xlog)
    (hkeys : ∀ entry ∈ s.xlog, entry.1.WellFormed) :
    (s.xlogRange edgeType first upper).Pairwise
      fun entry entry' => xlogEntry cellId entry.1 < xlogEntry cellId entry'.1 := by
  have hpairs : (s.xlogRange edgeType first upper).Pairwise fun entry entry' =>
      entry.1 < entry'.1 := hsorted.sublist List.filter_sublist
  refine hpairs.imp_of_mem fun hentry hentry' hlt => ?_
  obtain ⟨hsame, hwell⟩ := mem_xlogRange s hkeys _ hentry
  obtain ⟨hsame', hwell'⟩ := mem_xlogRange s hkeys _ hentry'
  exact (xlogEntry_lt_iff hwell hwell' (hsame.trans hsame'.symm)).mpr hlt

/-- **Scans are exact.** A scan over the texts of a changelog reads the entries
of an edge type between two sequences and no others, in the order of its texts
as in that of the keys, and each text that it reads is taken apart into the
numbers of its entry. The numbers are padded, which is why the texts are in
order. -/
theorem xlog_scan_exact (cellId edgeType : String) (s : Store) (first upper : Nat)
    (hfirst : first ≤ u64Max) (hupper : upper ≤ u64Max) (hsorted : Sorted s.xlog)
    (hkeys : ∀ entry ∈ s.xlog, entry.1.WellFormed) (htype : Lease.isComponent edgeType = true) :
    (s.xlog.filter fun entry => inScan (xlogTypePrefix cellId edgeType) first upper
      (xlogEntry cellId entry.1)) = s.xlogRange edgeType first upper ∧
    (s.xlogRange edgeType first upper).Pairwise
      (fun entry entry' => xlogEntry cellId entry.1 < xlogEntry cellId entry'.1) ∧
    ∀ entry ∈ s.xlogRange edgeType first upper,
      parseXlogEntryKey (xlogTypePrefix cellId edgeType) (xlogEntry cellId entry.1) =
        .ok (entry.1.sequence, entry.1.src, entry.1.dst) := by
  refine ⟨filter_inScan s hfirst hupper hkeys htype, pairwise_xlogRange s hsorted hkeys,
    fun entry hentry => ?_⟩
  obtain ⟨hsame, hwell⟩ := mem_xlogRange s hkeys entry hentry
  rw [← hsame]
  exact parse_xlogEntry hwell

/-- The changelog of a run, scanned from the third sequence on. Three entries of
the type are read. -/
theorem xlog_scan_exact_compacted :
    let s := (run outbound Store.empty importThenCompact).2
    (s.xlogRange "KNOWS" 3 5).length = 3 ∧
      (s.xlog.filter fun entry => inScan (xlogTypePrefix "cell-a" "KNOWS") 3 5
        (xlogEntry "cell-a" entry.1)) = s.xlogRange "KNOWS" 3 5 :=
  ⟨by decide, (xlog_scan_exact "cell-a" "KNOWS" (run outbound Store.empty importThenCompact).2 3 5
    (by decide) (by decide) (by unfold Sorted; decide) (by decide) (by decide)).1⟩

/-! ### Deltas -/

/-- An entry as the store keeps it. -/
def storedEntry (cellId : String) (entry : XlogKey × Bool) : List Char × List UInt8 :=
  (xlogEntry cellId entry.1, existsByte entry.2)

theorem decodeU64_encodeU64 (key : String) (h : n ≤ u64Max) : decodeU64 key (encodeU64 n) = .ok n := by
  have hlt : n < 256 ^ 8 := by
    rw [u64Max] at h
    omega
  rw [decodeU64, encodeU64, if_pos (by simp), List.reverse_reverse, Words.ofLeBytes_leBytes hlt]

/-- The byte of an entry is read back as what it says. -/
theorem decodeXlogExists_existsByte (key : List Char) (present : Bool) :
    decodeXlogExists key (existsByte present) = .ok present := by
  cases present
  · rfl
  · rfl

/-- Entries of one type are read one after the other, the later over the
earlier. -/
theorem readEntries_stored {entries : List (XlogKey × Bool)}
    (h : ∀ entry ∈ entries, entry.1.edgeType = edgeType ∧ entry.1.WellFormed) (overlay : Overlay) :
    readEntries (xlogTypePrefix cellId edgeType) (entries.map (storedEntry cellId)) overlay =
      .ok (entries.foldl
        (fun overlay entry => Overlay.set entry.1.src entry.1.dst entry.2 overlay) overlay) := by
  induction entries generalizing overlay with
  | nil => rfl
  | cons entry entries ih =>
      obtain ⟨⟨hsame, hwell⟩, hrest⟩ := List.forall_mem_cons.mp h
      have hparse : parseXlogEntryKey (xlogTypePrefix cellId edgeType) (xlogEntry cellId entry.1) =
          .ok (entry.1.sequence, entry.1.src, entry.1.dst) := by
        rw [← hsame]
        exact parse_xlogEntry hwell
      rw [List.map_cons, readEntries, storedEntry, hparse, Fallible.ok_bind,
        decodeXlogExists_existsByte, Fallible.ok_bind, ih hrest, List.foldl_cons]

/-- In whatever order the entries of a changelog are kept, a scan in the order
of the texts reads them in the order of the keys. -/
theorem filter_texts (s : Store) {texts : List (List Char × List UInt8)}
    (hfirst : first ≤ u64Max) (hupper : upper ≤ u64Max) (hsorted : Sorted s.xlog)
    (hkeys : ∀ entry ∈ s.xlog, entry.1.WellFormed) (htype : Lease.isComponent edgeType = true)
    (htexts : texts.Perm (s.xlog.map (storedEntry cellId)))
    (horder : texts.Pairwise fun entry entry' => entry.1 < entry'.1) :
    (texts.filter fun entry => inScan (xlogTypePrefix cellId edgeType) first upper entry.1) =
      (s.xlogRange edgeType first upper).map (storedEntry cellId) := by
  have hscan : ((s.xlog.map (storedEntry cellId)).filter fun entry =>
      inScan (xlogTypePrefix cellId edgeType) first upper entry.1) =
        (s.xlogRange edgeType first upper).map (storedEntry cellId) := by
    rw [List.filter_map, ← filter_inScan s hfirst hupper hkeys htype]
    rfl
  have hascending : (s.xlogRange edgeType first upper).Pairwise
      fun entry entry' => xlogEntry cellId entry.1 < xlogEntry cellId entry'.1 :=
    pairwise_xlogRange s hsorted hkeys
  refine List.Perm.eq_of_pairwise (fun entry entry' _ _ hlt hgt => ?_)
    (horder.sublist List.filter_sublist) (List.pairwise_map.mpr hascending)
    (hscan ▸ htexts.filter _)
  exact absurd hgt (lt_asymm hlt)

theorem saturatingSucc_le (n : Nat) : saturatingSucc n ≤ u64Max := Nat.min_le_right _ _

/-- **The delta of the texts.** What is read off the texts of a store, in the
order of the texts, is the delta that the changelog of the model has. So the
builds of the model may work on keys. -/
theorem xlog_delta_of_texts (cellId edgeType : String) (s : Store)
    (texts : List (List Char × List UInt8)) (previousBase baseSequence : Nat)
    (hlow : ∀ low, get edgeType s.xlogLow = some low → low ≤ u64Max) (hsorted : Sorted s.xlog)
    (hkeys : ∀ entry ∈ s.xlog, entry.1.WellFormed) (htype : Lease.isComponent edgeType = true)
    (htexts : texts.Perm (s.xlog.map (storedEntry cellId)))
    (horder : texts.Pairwise fun entry entry' => entry.1 < entry'.1) :
    xlogDeltaOfTexts cellId edgeType ((get edgeType s.xlogLow).map encodeU64) texts previousBase
        baseSequence =
      .ok (s.xlogDeltaSince edgeType previousBase baseSequence) := by
  unfold xlogDeltaOfTexts Store.xlogDeltaSince
  cases hget : get edgeType s.xlogLow with
  | none => rfl
  | some low =>
      simp only [Option.map_some]
      rw [decodeU64_encodeU64 _ (hlow low hget), Fallible.ok_bind]
      by_cases hgap : saturatingSucc previousBase < low
      · rw [if_pos hgap, if_pos hgap]
        rfl
      · rw [if_neg hgap, if_neg hgap, filter_texts s (saturatingSucc_le _) (saturatingSucc_le _)
          hsorted hkeys htype htexts horder, readEntries_stored (mem_xlogRange s hkeys),
          Fallible.ok_bind]
        rfl

/-- The changelog of the same run, from the second sequence on. Its delta is not
empty, and it is the same of both. -/
theorem xlog_delta_of_texts_compacted :
    let s := (run outbound Store.empty importThenCompact).2
    xlogDeltaOfTexts "cell-a" "KNOWS" ((get "KNOWS" s.xlogLow).map encodeU64)
        (s.xlog.map (storedEntry "cell-a")) 2 4 =
      .ok (s.xlogDeltaSince "KNOWS" 2 4) ∧
    s.xlogDeltaSince "KNOWS" 2 4 ≠ .complete [] :=
  ⟨xlog_delta_of_texts "cell-a" "KNOWS" (run outbound Store.empty importThenCompact).2 _ 2 4
    (by decide) (by unfold Sorted; decide) (by decide) (by decide) (.refl _) (by decide), by decide⟩

end ContextMemory.Topology
