import ResourceIndex.Proofs.Text.Cut
import ResourceIndex.Proofs.Text.Percent
import ResourceIndex.Url.Basic
/-
Paths by their pieces. A segment that is added becomes the last piece of a path in encoded form,
but for the segments that a path does not keep: dots are dropped, and so are tabs and line ends. No
piece of a path that was read decodes to dots.
-/
namespace ResourceIndex.Url

open Text

variable {c x y : Char} {s t path segment scheme : List Char} {segments : List (List Char)}

theorem eq_or_eq_of_toLower (hall : ∀ n < 128, (Char.ofNat n).toLower = x →
    Char.ofNat n = x ∨ Char.ofNat n = y) (hx : x.toNat < 128) (h : c.toLower = x) :
    c = x ∨ c = y := by
  have hc := hall c.toNat (toNat_lt_of_toLower (h ▸ hx))
  rw [Char.ofNat_toNat] at hc
  exact hc h

theorem lowerAscii_eq_dot_iff : lowerAscii s = ['.'] ↔ s = ['.'] := by
  constructor
  · intro h
    obtain ⟨c, rfl, hc⟩ := List.map_eq_singleton_iff.mp h
    rcases eq_or_eq_of_toLower (x := '.') (y := '.') (by decide) (by decide) hc with rfl | rfl
    · rfl
    · rfl
  · rintro rfl
    rfl

theorem lowerAscii_eq_code_iff :
    lowerAscii s = ['%', '2', 'e'] ↔ s = ['%', '2', 'e'] ∨ s = ['%', '2', 'E'] := by
  constructor
  · intro h
    obtain ⟨a, r, rfl, ha, hr⟩ := List.map_eq_cons_iff.mp h
    obtain ⟨b, r, rfl, hb, hr⟩ := List.map_eq_cons_iff.mp hr
    obtain ⟨c, rfl, hc⟩ := List.map_eq_singleton_iff.mp hr
    obtain rfl : a = '%' := or_self_iff.mp (eq_or_eq_of_toLower (by decide) (by decide) ha)
    obtain rfl : b = '2' := or_self_iff.mp (eq_or_eq_of_toLower (by decide) (by decide) hb)
    rcases eq_or_eq_of_toLower (x := 'e') (y := 'E') (by decide) (by decide) hc with rfl | rfl
    · exact .inl rfl
    · exact .inr rfl
  · rintro (rfl | rfl)
    · rfl
    · rfl

/-- In small letters, a text is one of two that write a dot. -/
theorem mem_dotForms_iff :
    s ∈ dotForms ↔ lowerAscii s = ['.'] ∨ lowerAscii s = ['%', '2', 'e'] := by
  rw [lowerAscii_eq_dot_iff, lowerAscii_eq_code_iff]
  simp only [dotForms, List.mem_cons, List.not_mem_nil, or_false]

theorem isDot_iff : isDot s = true ↔ s ∈ dotForms := by
  rw [mem_dotForms_iff, lowerAscii_eq_dot_iff, isDot, Bool.or_eq_true, beq_iff_eq, beq_iff_eq]
  rfl

theorem isDoubleDot_iff : isDoubleDot s = true ↔ ∃ p ∈ dotForms, ∃ q ∈ dotForms, s = p ++ q := by
  constructor
  · intro h
    have hsplit : ∀ t ∈ ["..", "%2e%2e", "%2e.", ".%2e"], ∃ u ∈ [['.'], ['%', '2', 'e']],
        ∃ v ∈ [['.'], ['%', '2', 'e']], t.toList = u ++ v := by decide
    obtain ⟨t, ht, hlower⟩ := List.any_eq_true.mp h
    obtain ⟨u, hu, v, hv, htext⟩ := hsplit t ht
    rw [beq_iff_eq, htext, eq_comm] at hlower
    obtain ⟨p, q, rfl, hp, hq⟩ := List.map_eq_append_iff.mp hlower
    have hforms : ∀ {p u}, u ∈ [['.'], ['%', '2', 'e']] → lowerAscii p = u → p ∈ dotForms := by
      rintro p u hu rfl
      simpa only [mem_dotForms_iff, List.mem_cons, List.not_mem_nil, or_false] using hu
    exact ⟨p, hforms hu hp, q, hforms hv hq, rfl⟩
  · rintro ⟨p, hp, q, hq, rfl⟩
    have hall : ∀ p ∈ dotForms, ∀ q ∈ dotForms, isDoubleDot (p ++ q) = true := by decide
    exact hall p hp q hq

theorem percentDecode_eq_nil_iff : percentDecode s = [] ↔ s = [] := by
  cases s with
  | nil => exact iff_of_true rfl rfl
  | cons c r => exact iff_of_false (percentDecode_ne_nil c r) (List.cons_ne_nil c r)

/-- A piece is taken for a dot exactly if it decodes to one. -/
theorem isDot_iff_percentDecode : isDot s = true ↔ percentDecode s = bytesOf ['.'] := by
  rw [isDot_iff]
  constructor
  · intro hs
    have hdecode := percentDecode_dotForm hs []
    rwa [List.append_nil] at hdecode
  · intro h
    obtain ⟨p, hp, r, rfl, hr⟩ := exists_dotForm_of_percentDecode h
    rwa [percentDecode_eq_nil_iff.mp hr, List.append_nil]

theorem isDoubleDot_iff_percentDecode :
    isDoubleDot s = true ↔ percentDecode s = bytesOf ['.', '.'] := by
  rw [isDoubleDot_iff]
  constructor
  · rintro ⟨p, hp, q, hq, rfl⟩
    rw [percentDecode_dotForm hp, isDot_iff_percentDecode.mp (isDot_iff.mpr hq)]
    rfl
  · intro h
    obtain ⟨p, hp, q, rfl, hq⟩ := exists_dotForm_of_percentDecode h
    exact ⟨p, hp, q, isDot_iff.mp (isDot_iff_percentDecode.mpr hq), rfl⟩

/-- A text that a path keeps as it is when it is added as a segment. -/
structure IsPlain (s : List Char) : Prop where
  ne_dot : s ≠ ['.']
  ne_dots : s ≠ ['.', '.']
  kept : ∀ c ∈ s, isPassedOver c = false

theorem isPlain_iff : IsPlain s ↔
    s ≠ ['.'] ∧ s ≠ ['.', '.'] ∧ s.all (fun c => !isPassedOver c) = true := by
  simp only [List.all_eq_true, Bool.not_eq_true']
  exact ⟨fun h => ⟨h.ne_dot, h.ne_dots, h.kept⟩, fun h => ⟨h.1, h.2.1, h.2.2⟩⟩

instance : Decidable (IsPlain s) := decidable_of_iff _ isPlain_iff.symm

/-- A segment as it stands in a path. -/
def encoded (scheme segment : List Char) : List Char :=
  percentEncode (segmentSet scheme) (segment.filter fun c => !isPassedOver c)

theorem percentDecode_encoded (scheme segment : List Char) :
    percentDecode (encoded scheme segment) =
      bytesOf (segment.filter fun c => !isPassedOver c) :=
  percentDecode_percentEncode (by simp [segmentSet]) _

theorem slash_notMem_percentEncode {set : List Char} (h : '/' ∈ s → '/' ∈ set) :
    '/' ∉ percentEncode set s := by
  intro hmem
  have hdigits : ∀ n < 16, upperHex n ≠ '/' := by decide
  rcases mem_percentEncode hmem with ⟨hs, hset⟩ | hpercent | ⟨n, hn, hdigit⟩
  · exact hset (h hs)
  · exact absurd hpercent (by decide)
  · exact hdigits n hn hdigit.symm

theorem slash_notMem_encoded (scheme segment : List Char) : '/' ∉ encoded scheme segment :=
  slash_notMem_percentEncode fun _ => by simp [segmentSet]

/-- The piece of a path behind its last slash. -/
def lastPiece (path : List Char) : List Char := (splitOn '/' path).getLastD []

theorem splitOn_append_piece (h : '/' ∉ t) (s : List Char) :
    splitOn '/' (s ++ '/' :: t) = splitOn '/' s ++ [t] := by
  rw [splitOn_append_sep, splitOn_of_notMem h]

theorem lastPiece_append (h : '/' ∉ t) (s : List Char) : lastPiece (s ++ '/' :: t) = t := by
  rw [lastPiece, splitOn_append_piece h, List.getLastD_concat]

/-- Two dots lead from one path that ends with a slash to another. -/
theorem exists_climb_eq (path : List Char) : ∃ s, climb (path ++ ['/']) = s ++ ['/'] ∧
    (path = s ∨ ∃ t, path = s ++ '/' :: t) := by
  rw [climb, List.dropLast_concat]
  split
  · rename_i hslash
    obtain ⟨t, s, hreverse, ht⟩ := List.eq_append_cons_of_mem
      (List.mem_reverse.mpr (List.contains_iff_mem.mp hslash))
    obtain rfl : path = s.reverse ++ '/' :: t.reverse := by
      rw [← List.reverse_reverse path, hreverse, List.reverse_append, List.reverse_cons,
        List.append_assoc, List.singleton_append]
    refine ⟨s.reverse, ?_, .inr ⟨t.reverse, rfl⟩⟩
    rw [afterLast_append_cons fun hmem => ht (List.mem_reverse.mp hmem), List.append_cons,
      List.length_append, Nat.add_sub_cancel, List.take_left]
  · exact ⟨path, rfl, .inl rfl⟩

/-- A path that is empty or begins with a slash, and none of whose pieces stands for dots. -/
structure IsClean (path : List Char) : Prop where
  led : Led '/' path
  pieces : ∀ p ∈ splitOn '/' path, isDot p = false ∧ isDoubleDot p = false

theorem IsClean.of_append (h : IsClean (s ++ '/' :: t)) : IsClean s := by
  have hpieces := h.pieces
  rw [splitOn_append_sep] at hpieces
  refine ⟨?_, fun p hp => hpieces p (List.mem_append_left _ hp)⟩
  cases s with
  | nil => exact .inl rfl
  | cons c s =>
    rcases h.led with hnil | ⟨u, hcons⟩
    · cases hnil
    · cases hcons
      exact .inr ⟨s, rfl⟩

theorem IsClean.append_piece (h : IsClean s) (ht : '/' ∉ t)
    (hdots : isDot t = false ∧ isDoubleDot t = false) : IsClean (s ++ '/' :: t) := by
  refine ⟨h.led.append (.inr ⟨t, rfl⟩), ?_⟩
  rw [splitOn_append_piece ht]
  exact List.forall_mem_append.mpr ⟨h.pieces, List.forall_mem_singleton.mpr hdots⟩

theorem IsClean.append_slash (h : IsClean s) : IsClean (s ++ ['/']) :=
  h.append_piece List.not_mem_nil ⟨rfl, rfl⟩

theorem isClean_nil : IsClean [] := ⟨.inl rfl, List.forall_mem_singleton.mpr ⟨rfl, rfl⟩⟩

theorem addSegment_dots (hdots : isDot segment = true ∨ isDoubleDot segment = true)
    (path : List Char) : ∃ s, addSegment (path ++ ['/']) segment = s ++ ['/'] ∧
      (path = s ∨ ∃ t, path = s ++ '/' :: t) := by
  rw [addSegment]
  split
  · exact exists_climb_eq path
  · rename_i hdouble
    rw [if_pos (hdots.resolve_right hdouble)]
    exact ⟨path, rfl, .inl rfl⟩

theorem addSegment_piece (hdots : isDot segment = false ∧ isDoubleDot segment = false)
    (path : List Char) : addSegment (path ++ ['/']) segment = path ++ '/' :: segment := by
  rw [addSegment, hdots.left, hdots.right, if_neg Bool.false_ne_true, if_neg Bool.false_ne_true,
    List.append_assoc, List.singleton_append]

theorem dots_or (segment : List Char) : (isDot segment = true ∨ isDoubleDot segment = true) ∨
    isDot segment = false ∧ isDoubleDot segment = false := by
  cases isDot segment with
  | true => exact .inl (.inl rfl)
  | false =>
    cases isDoubleDot segment with
    | true => exact .inl (.inr rfl)
    | false => exact .inr ⟨rfl, rfl⟩

theorem isClean_of_climbed (h : IsClean path) (hs : path = s ∨ ∃ t, path = s ++ '/' :: t) :
    IsClean s := by
  rcases hs with rfl | ⟨t, rfl⟩
  · exact h
  · exact h.of_append

theorem isClean_addSegments (h : IsClean path) (hsegments : ∀ p ∈ segments, '/' ∉ p) :
    IsClean (addSegments (path ++ ['/']) segments) := by
  induction segments generalizing path with
  | nil => exact h.append_slash
  | cons segment rest ih =>
    obtain ⟨hsegment, hrest⟩ := List.forall_mem_cons.mp hsegments
    rcases dots_or segment with hdots | hdots
    · obtain ⟨s, hadd, hs⟩ := addSegment_dots hdots path
      have hclean := isClean_of_climbed h hs
      cases rest with
      | nil =>
        rw [addSegments, hadd]
        exact hclean.append_slash
      | cons next rest =>
        rw [addSegments, hadd, if_pos ⟨List.getLast?_concat, hdots⟩]
        · exact ih hclean hrest
        · exact List.cons_ne_nil _ _
    · have hclean := h.append_piece hsegment hdots
      cases rest with
      | nil =>
        rw [addSegments, addSegment_piece hdots]
        exact hclean
      | cons next rest =>
        have hplain : ¬ (isDot segment = true ∨ isDoubleDot segment = true) := by
          rw [hdots.left, hdots.right]
          decide
        rw [addSegments, addSegment_piece hdots, if_neg fun hcond => hplain hcond.right]
        · exact ih hclean hrest
        · exact List.cons_ne_nil _ _

theorem isClean_hierarchical (special : Bool) (text : List Char) :
    IsClean (hierarchical special text) := by
  unfold hierarchical
  extract_lets slashed body
  split
  · exact isClean_nil
  · refine isClean_addSegments isClean_nil fun p hp => ?_
    obtain ⟨q, hq, rfl⟩ := List.mem_map.mp hp
    exact slash_notMem_percentEncode fun hmem => absurd hmem (notMem_of_mem_splitOn hq)

theorem isClean_withPath (scheme : List Char) (host : Option Host) (port : Option Nat)
    (s : List Char) : IsClean (withPath scheme host port s).path :=
  isClean_hierarchical _ _

theorem isClean_withAuthority {u : Url} (h : withAuthority scheme s = .ok u) : IsClean u.path := by
  rw [withAuthority] at h
  generalize cutBefore _ s = cut at h
  cases hauthority : authority scheme cut.1 cut.2 with
  | error e =>
    simp only [hauthority] at h
    cases h
  | ok place =>
    simp only [hauthority] at h
    cases h
    exact isClean_withPath _ _ _ _

theorem isClean_fileUrl {u : Url} (h : fileUrl scheme s = .ok u) : IsClean u.path := by
  unfold fileUrl at h
  split at h
  · rename_i a b r
    extract_lets isSlash at h
    split at h
    · generalize cutBefore _ r = cut at h
      obtain ⟨text, rest⟩ := cut
      dsimp only at h
      generalize (text.isEmpty || _) = isHere at h
      cases isHere with
      | true =>
        cases h
        exact isClean_withPath _ _ _ _
      | false =>
        rw [if_neg Bool.false_ne_true] at h
        cases hhost : Host.parse text with
        | error e =>
          rw [hhost] at h
          cases h
        | ok host =>
          rw [hhost] at h
          cases h
          exact isClean_withPath _ _ _ _
    · cases h
      exact isClean_withPath _ _ _ _
  · cases h
    exact isClean_withPath _ _ _ _

theorem isClean_parseTrimmed {u : Url} (h : parseTrimmed s = .ok u) (hu : u.isOpaque = false) :
    IsClean u.path := by
  rw [parseTrimmed] at h
  split at h
  · cases h
  · split at h
    · exact isClean_fileUrl h
    split at h
    · exact isClean_withAuthority h
    split at h
    · exact isClean_withAuthority h
    · cases h
      exact isClean_withPath _ _ _ _
    · cases h
      cases hu

/-- The path of a URL that was read is clean, unless it is opaque. -/
theorem isClean_parse {text : String} {u : Url} (h : parse text = .ok u)
    (hu : u.isOpaque = false) : IsClean u.path :=
  isClean_parseTrimmed h hu

theorem isClean_popEmpty (h : IsClean path) : IsClean (popEmpty path) := by
  rw [popEmpty]
  split
  · rename_i hends
    obtain ⟨front, rfl⟩ := List.getLast?_eq_some_iff.mp hends.right
    rw [List.dropLast_concat]
    exact h.of_append
  · exact h

/-- The path that a further segment is put behind. -/
def stem (path : List Char) : List Char := if path.length = 1 then [] else path

theorem lastPiece_stem (h : Led '/' path) : lastPiece (stem path) = lastPiece path := by
  rw [stem]
  split
  · rename_i hlength
    rcases h with rfl | ⟨t, rfl⟩
    · rfl
    · obtain rfl : t = [] := List.length_eq_zero_iff.mp (Nat.succ.inj hlength)
      rfl
  · rfl

theorem stem_append (ht : t ≠ []) (s : List Char) : stem (s ++ '/' :: t) = s ++ '/' :: t := by
  refine if_neg fun hlength => ht (List.length_eq_zero_iff.mp ?_)
  rw [List.length_append, List.length_cons] at hlength
  omega

theorem pushSegment_eq (h : Led '/' path) (hone : segment ≠ ['.']) (htwo : segment ≠ ['.', '.']) :
    pushSegment scheme path segment =
      addSegment (stem path ++ ['/']) (encoded scheme segment) := by
  rw [pushSegment, if_neg fun hdots => hdots.elim hone htwo, stem]
  extract_lets slashed
  congr 1
  unfold slashed
  split
  · rename_i hlength
    rcases h with rfl | ⟨t, rfl⟩
    · cases hlength
    · obtain rfl : t = [] := List.length_eq_zero_iff.mp (Nat.succ.inj hlength)
      rfl
  · rfl

theorem encoded_of_isPlain (h : IsPlain segment) (scheme : List Char) :
    isDot (encoded scheme segment) = false ∧ isDoubleDot (encoded scheme segment) = false ∧
      percentDecode (encoded scheme segment) = bytesOf segment := by
  have hkept : segment.filter (fun c => !isPassedOver c) = segment := by
    rw [List.filter_eq_self]
    intro c hc
    rw [h.kept c hc, Bool.not_false]
  have hdecode := percentDecode_encoded scheme segment
  rw [hkept] at hdecode
  refine ⟨Bool.eq_false_iff.mpr fun hdot => ?_, Bool.eq_false_iff.mpr fun hdots => ?_, hdecode⟩
  · exact h.ne_dot (bytesOf_inj (hdecode.symm.trans (isDot_iff_percentDecode.mp hdot)))
  · exact h.ne_dots (bytesOf_inj (hdecode.symm.trans (isDoubleDot_iff_percentDecode.mp hdots)))

/-- A plain segment becomes the last piece. -/
theorem pushSegment_of_isPlain (h : Led '/' path) (hplain : IsPlain segment) :
    pushSegment scheme path segment = stem path ++ '/' :: encoded scheme segment := by
  obtain ⟨hdot, hdots, -⟩ := encoded_of_isPlain hplain scheme
  rw [pushSegment_eq h hplain.ne_dot hplain.ne_dots, addSegment_piece ⟨hdot, hdots⟩]

theorem IsClean.stem (h : IsClean path) : IsClean (stem path) := by
  rw [Url.stem]
  split
  · exact isClean_nil
  · exact h

theorem IsClean.pushSegment (h : IsClean path) (scheme segment : List Char) :
    IsClean (pushSegment scheme path segment) := by
  by_cases hsegment : segment = ['.'] ∨ segment = ['.', '.']
  · rw [Url.pushSegment, if_pos hsegment]
    exact h
  · obtain ⟨hone, htwo⟩ := not_or.mp hsegment
    rw [pushSegment_eq h.led hone htwo]
    rcases dots_or (encoded scheme segment) with hdots | hdots
    · obtain ⟨s, hadd, hs⟩ := addSegment_dots hdots (Url.stem path)
      rw [hadd]
      exact (isClean_of_climbed h.stem hs).append_slash
    · rw [addSegment_piece hdots]
      exact h.stem.append_piece (slash_notMem_encoded scheme segment) hdots

theorem splitOn_eq_concat (path : List Char) :
    splitOn '/' path = (splitOn '/' path).dropLast ++ [lastPiece path] := by
  have hne := splitOn_ne_nil '/' path
  rw [lastPiece, List.getLastD_eq_getLast?, List.getLast?_eq_some_getLast hne, Option.getD_some,
    List.dropLast_concat_getLast hne]

theorem lastPiece_mem (path : List Char) : lastPiece path ∈ splitOn '/' path := by
  rw [splitOn_eq_concat]
  exact List.mem_append_right _ List.mem_cons_self

/-- The last piece decodes to the segment that was added exactly if this is plain. -/
theorem percentDecode_lastPiece_iff (h : IsClean path) (scheme segment : List Char) :
    percentDecode (lastPiece (pushSegment scheme path segment)) = bytesOf segment ↔
      IsPlain segment := by
  have hdots := h.pieces _ (lastPiece_mem path)
  constructor
  · intro hlast
    by_cases hsegment : segment = ['.'] ∨ segment = ['.', '.']
    · rw [pushSegment, if_pos hsegment] at hlast
      rcases hsegment with rfl | rfl
      · rw [isDot_iff_percentDecode.mpr hlast] at hdots
        cases hdots.left
      · rw [isDoubleDot_iff_percentDecode.mpr hlast] at hdots
        cases hdots.right
    · obtain ⟨hone, htwo⟩ := not_or.mp hsegment
      rw [pushSegment_eq h.led hone htwo] at hlast
      rcases dots_or (encoded scheme segment) with henc | henc
      · -- The path ends with a slash then, and so the segment would have to be empty.
        obtain ⟨s, hadd, -⟩ := addSegment_dots henc (stem path)
        rw [hadd, lastPiece_append List.not_mem_nil] at hlast
        obtain rfl : segment = [] := (bytesOf_inj (t := []) hlast.symm)
        rcases henc with henc | henc
        · cases henc
        · cases henc
      · rw [addSegment_piece henc, lastPiece_append (slash_notMem_encoded scheme segment),
          percentDecode_encoded] at hlast
        refine ⟨hone, htwo, fun c hc => ?_⟩
        rw [← bytesOf_inj hlast] at hc
        exact Bool.not_eq_true' _ ▸ (List.mem_filter.mp hc).right
  · intro hplain
    rw [pushSegment_of_isPlain h.led hplain, lastPiece_append (slash_notMem_encoded scheme segment)]
    exact (encoded_of_isPlain hplain scheme).right.right

end ResourceIndex.Url
